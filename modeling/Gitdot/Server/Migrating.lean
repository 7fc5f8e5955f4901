/-
# Running a migration

`migrate_github_repositories` marks the migration as running and spawns a task for
each of its entries. A task marks the entry, mirrors the repository, and writes what
came of it: the status of the entry and, if there is a repository, its id. The
results of these writes are discarded. The tasks are joined, and the migration is
marked as completed if all of them have made their repositories, else as failed.

What is in memory and what is in the rows agree as long as no write that completes
an entry is refused: then the row of an entry tells where its task is (`RowOK`), and
at the end the migration tells what its entries do (`truthful_run`). A repository
that is deleted takes its id out of its entry with it.

Key definitions: `TaskState`, `Parent`, `migratingNext`, `Truthful`, `Faithful`,
`RowOK`, `TaskOK`, `Phase`, `Sound`.
Key theorems: `obeys_migrateEntry`, `taskOK_next`, `sound_run`, `truthful_run`.
-/
import Gitdot.Server.Handles
import Gitdot.Server.Migrations
import Gitdot.Server.Underway

namespace Gitdot
namespace Migrate

open Lib Prog Site

/-! ### Statements -/

namespace MigrationStore

variable (s : MigrationStore)

/-- `update_status`. -/
def updateStatus (id : Uuid) (status : MigrationStatus) : Except MigrationError Unit × MigrationStore :=
  if id ∈ s.migrations.map Migration.id then
    (.ok (), { s with migrations := s.migrations.map fun m =>
      if m.id = id then { m with status := status } else m })
  else (.error (.app (.database .rowNotFound)), s)

/-- The rows with those of one id rewritten. -/
def updateRows (id : Uuid) (f : MigrationRepository → MigrationRepository) : MigrationStore :=
  { s with repositories := s.repositories.map fun row => if row.id = id then f row else row }

/-- `update_migration_repository_status`. -/
def updateRepositoryStatus (id : Uuid) (status : MigrationRepositoryStatus)
    (error : Option MigrationError) : Except MigrationError Unit × MigrationStore :=
  if id ∈ s.repositories.map MigrationRepository.id then
    (.ok (), s.updateRows id fun row => { row with status := status, error := error })
  else (.error (.app (.database .rowNotFound)), s)

/-- `set_destination_repository_id`: the foreign key is checked if there is a row. -/
def setDestination (id repository : Uuid) : Except MigrationError Unit × MigrationStore :=
  if id ∈ s.repositories.map MigrationRepository.id ∧
      (s.site.world.repositories.get? repository).isNone then
    (.error (.app (.database .foreignKeyViolation)), s)
  else (.ok (), s.updateRows id fun row => { row with destinationRepositoryId := some repository })

/-- The store with another site: `ON DELETE SET NULL`, a row loses the repository
that is gone. -/
def withSite (site : Storage) : MigrationStore :=
  { s with
    site := site
    repositories := s.repositories.map fun row =>
      if row.destinationRepositoryId.any fun id => (site.world.repositories.get? id).isNone then
        { row with destinationRepositoryId := none }
      else row }

end MigrationStore

/-- The statements on the rows of a migration that runs. -/
inductive StatusCall where
  | updateStatus (id : Uuid) (status : MigrationStatus)
  | updateRepositoryStatus (id : Uuid) (status : MigrationRepositoryStatus)
      (error : Option MigrationError)
  | setDestination (id repository : Uuid)
  deriving DecidableEq

def statusHandler : Handler StatusCall (fun _ => Unit) MigrationError MigrationStore where
  exec
    | .updateStatus id status, s => s.updateStatus id status
    | .updateRepositoryStatus id status error, s => s.updateRepositoryStatus id status error
    | .setDestination id repository, s => s.setDestination id repository
  fault _ := .app (.database .connection)

/-! ### The tasks -/

/-- An entry that is to be migrated, with the id that its repository draws. -/
structure MigrationEntry where
  row : MigrationRepository
  repositoryId : Uuid
  deriving DecidableEq

/-- `MigrateGitHubRepositoriesRequest`. -/
structure MigrateGitHubRepositoriesRequest where
  migrationId : Uuid
  installationId : ℤ
  ownerId : Uuid
  ownerName : String
  ownerType : RepositoryOwnerType
  migrationRepositories : List MigrationEntry
  readonly : Bool
  deriving DecidableEq

variable (request : MigrateGitHubRepositoriesRequest)

/-- The second part of a full name. -/
def repoNameOf (fullName : String) : Option String :=
  ((fullName.toList.splitOn '/')[1]?).map String.ofList

/-- `migrate_single_repository`, of an entry. -/
def migrateEntry (entry : MigrationEntry) : SiteProg Unit :=
  match repoNameOf entry.row.originFullName with
  | none => .fail (.input "repository name" entry.row.originFullName)
  | some repoName => migrateSingleRepository
      ⟨entry.repositoryId, request.ownerName, request.ownerId, request.ownerType, repoName,
        entry.row.visibility, request.readonly⟩

/-- Where a task is: what it does next. -/
inductive TaskState where
  | marking
  | migrating (c : SiteCall) (k : Except AppError (SiteResp c) → SiteProg Unit)
  | completing
  | linking
  | failing (e : AppError)
  | done (migrated : Bool)
  | panicked

/-- What follows of `migrate_single_repository`, or what its result leads to. -/
def settle : SiteProg Unit → TaskState
  | .ret _ => .completing
  | .fail e => .failing e
  | .call c k => .migrating c k

/-- The task's next call, and where its answer takes it. The answers of the
statements are discarded. -/
def taskNext (entry : MigrationEntry) (fate : Fate) :
    TaskState → MigrationStore → TaskState × MigrationStore
  | .marking, s => (settle (migrateEntry request entry),
      (statusHandler.meet (.updateRepositoryStatus entry.row.id .running none) fate s).2)
  | .migrating c k, s =>
    let out := siteHandler.meet c fate s.site
    (settle (k out.1), s.withSite out.2)
  | .completing, s => (.linking,
      (statusHandler.meet (.updateRepositoryStatus entry.row.id .completed none) fate s).2)
  | .linking, s => (.done true,
      (statusHandler.meet (.setDestination entry.row.id entry.repositoryId) fate s).2)
  | .failing e, s => (.done false,
      (statusHandler.meet (.updateRepositoryStatus entry.row.id .failed (some (.app e))) fate s).2)
  | t, s => (t, s)

/-- The task has ended. -/
def TaskState.ended : TaskState → Bool
  | .done _ | .panicked => true
  | _ => false

/-- The task has ended with a repository. -/
def TaskState.succeeded : TaskState → Bool
  | .done true => true
  | _ => false

/-- The task is about to write that its entry is completed, or where to. -/
def TaskState.isCompleting : TaskState → Bool
  | .completing | .linking => true
  | _ => false

/-- The entry of the task is completed, and names no repository yet. -/
def TaskState.isLinking : TaskState → Bool
  | .linking => true
  | _ => false

/-! ### The request -/

/-- Where the request is: it joins the tasks in their order. -/
inductive Parent where
  | askingToken
  | markingRunning
  | joining (next : ℕ) (allSucceeded : Bool) (migrated : List String)
  | finishing (allSucceeded : Bool) (migrated : List String)
  | returned (r : Except MigrationError (List String))
  deriving DecidableEq

structure Migrating where
  store : MigrationStore
  parent : Parent
  tasks : List TaskState

/-- `MigratedRepositoryInfo` of an entry that was migrated: its name. -/
def infoOf (n : ℕ) : List String :=
  ((request.migrationRepositories[n]?).bind fun entry => repoNameOf entry.row.originFullName).toList

def finalStatus (allSucceeded : Bool) : MigrationStatus :=
  if allSucceeded then .completed else .failed

/-- The request's next call. A join waits until its task has ended. -/
def parentNext (fate : Fate) (S : Migrating) : Migrating :=
  match S.parent with
  | .askingToken =>
    if fate = .answered then { S with parent := .markingRunning }
    else { S with parent := .returned (.error (.gitHub "error sending request")) }
  | .markingRunning =>
    let out := statusHandler.meet (.updateStatus request.migrationId .running) fate S.store
    match out.1 with
    | .error e => { S with store := out.2, parent := .returned (.error e) }
    | .ok _ => ⟨out.2, .joining 0 true [], request.migrationRepositories.map fun _ => .marking⟩
  | .joining next allSucceeded migrated =>
    match S.tasks[next]? with
    | none => { S with parent := .finishing allSucceeded migrated }
    | some (.done true) =>
      { S with parent := .joining (next + 1) allSucceeded (migrated ++ infoOf request next) }
    | some (.done false) | some .panicked => { S with parent := .joining (next + 1) false migrated }
    | some _ => S
  | .finishing allSucceeded migrated =>
    let out := statusHandler.meet (.updateStatus request.migrationId (finalStatus allSucceeded)) fate
      S.store
    { S with store := out.2, parent := .returned (out.1.map fun _ => migrated) }
  | .returned _ => S

/-- What happens next: the request or a task makes its next call, a task panics, or
another request makes a call. -/
inductive MigratingEvent where
  | parent (fate : Fate)
  | task (n : ℕ) (fate : Fate)
  | panic (n : ℕ)
  | other (c : SiteCall)
  deriving DecidableEq

def migratingNext : MigratingEvent → Migrating → Migrating
  | .parent fate, S => parentNext request fate S
  | .task n fate, S =>
    match request.migrationRepositories[n]?, S.tasks[n]? with
    | some entry, some t =>
      let out := taskNext request entry fate t S.store
      { S with store := out.2, tasks := S.tasks.set n out.1 }
    | _, _ => S
  | .panic n, S =>
    match S.tasks[n]? with
    | some t => if t.ended then S else { S with tasks := S.tasks.set n .panicked }
    | none => S
  | .other c, S => { S with store := S.store.withSite (siteExec c S.store.site).2 }

/-- The migration as it was planned: its rows are the entries of the request, none of
them has been worked on, and the primary key tells the rows apart. -/
structure Planned (S : Migrating) : Prop where
  parent : S.parent = .askingToken
  tasks : S.tasks = []
  migration : request.migrationId ∈ S.store.migrations.map Migration.id
  unique : (S.store.repositories.map MigrationRepository.id).Nodup
  entries : S.store.repositories.filter (fun row => decide (row.migrationId = request.migrationId)) =
    request.migrationRepositories.map MigrationEntry.row
  pending : ∀ entry ∈ request.migrationRepositories, entry.row.status = .pending

/-! ### The statuses -/

/-- The migration is marked as completed exactly if each of its entries is, and a
completed entry names a repository that exists. -/
structure Truthful (migration : Uuid) (s : MigrationStore) : Prop where
  status : (∃ m ∈ s.migrations, m.id = migration ∧ m.status = .completed) ↔
    ∀ row ∈ s.repositories, row.migrationId = migration → row.status = .completed
  destination : ∀ row ∈ s.repositories, row.migrationId = migration → row.status = .completed →
    ∃ id, row.destinationRepositoryId = some id ∧ (s.site.world.repositories.get? id).isSome

/-- No write that completes an entry is refused, no task dies between the two of
them, and no repository of the migration is deleted. -/
def Faithful (S : Migrating) : MigratingEvent → Prop
  | .parent _ => True
  | .task n fate => ∀ t ∈ S.tasks[n]?, t.isCompleting → fate ≠ .refused
  | .panic n => ∀ t ∈ S.tasks[n]?, t.isLinking = false
  | .other c => ∀ entry ∈ request.migrationRepositories, c ≠ .deleteRow entry.repositoryId

instance (S : Migrating) : (e : MigratingEvent) → Decidable (Faithful request S e)
  | .parent _ => .isTrue trivial
  | .task n fate => inferInstanceAs (Decidable (∀ t ∈ S.tasks[n]?, t.isCompleting → fate ≠ .refused))
  | .panic n => inferInstanceAs (Decidable (∀ t ∈ S.tasks[n]?, t.isLinking = false))
  | .other c => inferInstanceAs
      (Decidable (∀ entry ∈ request.migrationRepositories, c ≠ .deleteRow entry.repositoryId))

/-! ### Rows -/

/-- The row of an id. -/
def MigrationStore.row? (s : MigrationStore) (id : Uuid) : Option MigrationRepository :=
  s.repositories.find? fun row => decide (row.id = id)

/-- The repository is there. -/
def MigrationStore.Holds (s : MigrationStore) (repository : Uuid) : Prop :=
  (s.site.world.repositories.get? repository).isSome

def MigrationRepository.keys (row : MigrationRepository) : Uuid × Uuid := (row.id, row.migrationId)

section Rows

variable {s s' : MigrationStore} {entry : MigrationEntry} {id : Uuid} {row : MigrationRepository}

theorem MigrationStore.id_of_row? (h : s.row? id = some row) : row.id = id := by
  simpa using List.find?_some h

/-- Rows rewritten under their ids. -/
theorem row?_map {f : MigrationRepository → MigrationRepository} (hf : ∀ row, (f row).id = row.id)
    (hs : s'.repositories = s.repositories.map f) (id : Uuid) : s'.row? id = (s.row? id).map f := by
  have hp : (fun row : MigrationRepository => decide (row.id = id)) ∘ f =
      fun row => decide (row.id = id) := funext fun row => by simp [hf]
  unfold MigrationStore.row?
  rw [hs, List.find?_map, hp]

theorem row?_updateRows {f : MigrationRepository → MigrationRepository}
    (hf : ∀ row, (f row).id = row.id) (k : Uuid) :
    (s.updateRows id f).row? k = (s.row? k).map fun row => if row.id = id then f row else row :=
  row?_map (fun row => by split_ifs <;> simp [hf]) rfl k

/-- The row that a statement is about. -/
theorem row?_updateRows_self {f : MigrationRepository → MigrationRepository}
    (hf : ∀ row, (f row).id = row.id) (h : s.row? id = some row) :
    (s.updateRows id f).row? id = some (f row) := by
  rw [row?_updateRows hf, h, Option.map_some, if_pos (MigrationStore.id_of_row? h)]

theorem row?_withSite {site : Storage} (k : Uuid) :
    (s.withSite site).row? k = (s.row? k).map fun row =>
      if row.destinationRepositoryId.any fun id => (site.world.repositories.get? id).isNone then
        { row with destinationRepositoryId := none }
      else row :=
  row?_map (fun row => by split_ifs <;> rfl) rfl k

/-- A row there is can be updated. -/
theorem mem_ids_of_row? (h : s.row? id = some row) :
    id ∈ s.repositories.map MigrationRepository.id :=
  List.mem_map.mpr ⟨row, List.mem_of_find?_eq_some h, MigrationStore.id_of_row? h⟩

/-- Where the ids are unique, a row is the one of its id. -/
theorem row?_of_mem (hu : (s.repositories.map MigrationRepository.id).Nodup)
    (h : row ∈ s.repositories) : s.row? row.id = some row := by
  unfold MigrationStore.row?
  generalize s.repositories = rows at hu h
  induction rows with
  | nil => cases h
  | cons first rows ih =>
    rw [List.map_cons, List.nodup_cons] at hu
    rcases List.mem_cons.mp h with rfl | h
    · simp
    · have hne : first.id ≠ row.id := fun he => hu.1 (he ▸ List.mem_map_of_mem h)
      rw [List.find?_cons_of_neg (by simpa using hne)]
      exact ih hu.2 h

/-! ### What others keep of an entry -/

/-- The entry keeps its status, and the repository it names, which stays. -/
structure Carries (s s' : MigrationStore) (entry : MigrationEntry) : Prop where
  row : ∀ row, s.row? entry.row.id = some row → ∃ row', s'.row? entry.row.id = some row' ∧
    row'.status = row.status ∧ (row.destinationRepositoryId = some entry.repositoryId →
      s'.Holds entry.repositoryId → row'.destinationRepositoryId = some entry.repositoryId)
  repository : s.Holds entry.repositoryId → s'.Holds entry.repositoryId

theorem Carries.refl (s : MigrationStore) (entry : MigrationEntry) : Carries s s entry :=
  ⟨fun row h => ⟨row, h, rfl, fun hd _ => hd⟩, fun h => h⟩

/-- A statement on the migrations. -/
theorem carries_of_eq (hr : s'.repositories = s.repositories) (hs : s'.site = s.site) :
    Carries s s' entry := by
  refine ⟨fun row h => ⟨row, ?_, rfl, fun hd _ => hd⟩, fun h => ?_⟩
  · unfold MigrationStore.row?
    rw [hr]
    exact h
  · unfold MigrationStore.Holds
    rw [hs]
    exact h

/-- A statement on another entry. -/
theorem carries_updateRows {f : MigrationRepository → MigrationRepository}
    (hf : ∀ row, (f row).id = row.id) (hne : entry.row.id ≠ id) :
    Carries s (s.updateRows id f) entry := by
  refine ⟨fun row h => ⟨row, ?_, rfl, fun hd _ => hd⟩, fun h => h⟩
  rw [row?_updateRows hf, h, Option.map_some, if_neg]
  rw [MigrationStore.id_of_row? h]
  exact hne

/-- A site on which the repository stays. -/
theorem carries_withSite {site : Storage}
    (hkeep : s.Holds entry.repositoryId → (s.withSite site).Holds entry.repositoryId) :
    Carries s (s.withSite site) entry := by
  refine ⟨fun row h => ?_, hkeep⟩
  refine ⟨_, by rw [row?_withSite, h, Option.map_some], ?_, fun hd hholds => ?_⟩
  · split_ifs <;> rfl
  · rw [if_neg]
    · exact hd
    · rw [hd]
      exact fun hnone => absurd hholds (by simpa [MigrationStore.Holds, MigrationStore.withSite] using hnone)

/-- A call of a site that does not delete the repository. -/
theorem holds_exec {c : SiteCall} {site : Storage} {repository : Uuid}
    (hc : c ≠ .deleteRow repository)
    (h : (site.world.repositories.get? repository).isSome) :
    ((siteExec c site).2.world.repositories.get? repository).isSome := by
  rcases repositories_exec c site with heq | ⟨r, -, -, -, hinsert⟩ | ⟨id, rfl, heq⟩
  · rw [heq]
    exact h
  · rw [Table.get?_insert? hinsert]
    split_ifs
    · rfl
    · exact h
  · rw [heq, Table.get?_erase, if_neg]
    · exact h
    · rintro rfl
      exact hc rfl

end Rows

/-! ### One task -/

/-- The row of an entry tells where its task is. -/
def RowOK (entry : MigrationEntry) (row : MigrationRepository) : TaskState → Prop
  | .linking => row.status = .completed
  | .done true => row.status = .completed ∧ row.destinationRepositoryId = some entry.repositoryId
  | _ => row.status ≠ .completed

/-- The repository of an id was inserted. -/
def Inserted (id : Uuid) (seen : List SiteEvent) : Prop :=
  ∃ e ∈ seen, match e with
    | ⟨.insertRepository id' .., .ok _⟩ => id' = id
    | _ => False

/-- What a task has left to do of its repository: it deletes no row, and ends well
only once the repository was inserted. -/
abbrev Makes (id : Uuid) (seen : List SiteEvent) (p : SiteProg Unit) : Prop :=
  Obeys (fun _ c => ∀ row, c ≠ .deleteRow row) (fun seen r => r = .ok () → Inserted id seen) seen p

/-- The repository of a task: it is there once the task has made it. -/
def Made (s : MigrationStore) (id : Uuid) : TaskState → Prop
  | .migrating c k => ∃ seen, Makes id seen (.call c k) ∧ (Inserted id seen → s.Holds id)
  | .completing | .linking | .done true => s.Holds id
  | _ => True

structure TaskOK (s : MigrationStore) (entry : MigrationEntry) (t : TaskState) : Prop where
  row : ∃ row, s.row? entry.row.id = some row ∧ RowOK entry row t
  made : Made s entry.repositoryId t

section Task

variable {s s' : MigrationStore} {entry : MigrationEntry} {t : TaskState}

theorem makes_installHooks {owner repo : String} : ∀ {seen : List SiteEvent},
    Obeys (fun _ c => ∀ row, c ≠ .deleteRow row) (fun _ _ => True) seen (installHooks owner repo) := by
  intro seen
  unfold installHooks
  refine obeys_perform_bind (fun _ => nofun) (fun _ => trivial) fun _ => ?_
  refine obeys_perform_bind (fun _ => nofun) (fun _ => trivial) fun _ => ?_
  exact ⟨fun _ => nofun, fun r => by cases r <;> trivial⟩

/-- Mirroring a repository deletes no row, and ends well only with the row inserted. -/
theorem makes_migrateSingleRepository (r : MigrationRequest) :
    Makes r.id [] (migrateSingleRepository r) := by
  refine obeys_perform_bind (fun _ => nofun) (fun _ => nofun) fun found => ?_
  refine obeys_ite (fun _ => nofun) fun _ => ?_
  refine obeys_perform_bind (fun _ => nofun) (fun _ => nofun) fun _ => ?_
  refine obeys_orDeleteRepo (S := fun seen r' => r' = .ok () → Inserted r.id seen)
    (fun _ _ h => h) (fun _ _ _ => ⟨fun _ => nofun, fun _ => nofun⟩) ?_
  refine obeys_perform_bind (fun _ => nofun) (fun _ => nofun) fun _ => ?_
  refine obeys_bind (fun seen _ _ => ?_) (fun _ _ _ => nofun) makes_installHooks
  refine obeys_perform_bind (fun _ => nofun) (fun _ => nofun) fun row => ?_
  exact fun _ => ⟨_, List.mem_cons_self, rfl⟩

theorem obeys_migrateEntry : Makes entry.repositoryId [] (migrateEntry request entry) := by
  unfold migrateEntry
  split
  · exact nofun
  · exact makes_migrateSingleRepository _

theorem rowOK_settle {row : MigrationRepository} {p : SiteProg Unit} :
    RowOK entry row (settle p) ↔ row.status ≠ .completed := by
  cases p <;> exact Iff.rfl

/-- What a task has of its repository, whether it has ended or not. -/
theorem made_settle {id : Uuid} {seen : List SiteEvent} {p : SiteProg Unit} (hp : Makes id seen p)
    (hs : Inserted id seen → s.Holds id) : Made s id (settle p) := by
  cases p with
  | ret a => exact hs (hp rfl)
  | fail e => trivial
  | call c k => exact ⟨seen, hp, hs⟩

/-- An inserted repository is there. -/
theorem holds_of_inserted {c : SiteCall} {site site' : Storage} {id : Uuid}
    {r : Except AppError (SiteResp c)} {seen : List SiteEvent}
    (hx : siteExec c site = (r, site')) (hin : Inserted id (⟨c, r⟩ :: seen)) :
    Inserted id seen ∨ (site'.world.repositories.get? id).isSome := by
  obtain ⟨e, he, hinserts⟩ := hin
  rcases List.mem_cons.mp he with rfl | he
  · right
    cases c with
    | insertRepository id' name ownerId ownerType visibility readonly =>
      cases r with
      | error e => exact hinserts.elim
      | ok row =>
        obtain rfl : id' = id := hinserts
        rw [siteExec] at hx
        rcases insertRepository_cases site id' name ownerId ownerType visibility readonly with
          ⟨e, heq⟩ | ⟨repositories, heq, -, hinsert⟩
        · rw [heq] at hx
          cases hx
        · rw [heq] at hx
          obtain ⟨-, rfl⟩ := Prod.mk.inj hx
          rw [Table.get?_insert? hinsert]
          simp
    | _ => exact hinserts.elim
  · exact .inl ⟨e, he, hinserts⟩

/-- Others keep what holds of a task. -/
theorem TaskOK.carry (h : TaskOK s entry t) (hc : Carries s s' entry) : TaskOK s' entry t := by
  obtain ⟨row, hrow, hok⟩ := h.row
  obtain ⟨row', hrow', hstatus, hdest⟩ := hc.row row hrow
  have hmade : Made s' entry.repositoryId t := by
    have hm := h.made
    cases t with
    | migrating c k =>
      obtain ⟨seen, hmakes, hin⟩ := hm
      exact ⟨seen, hmakes, fun hi => hc.repository (hin hi)⟩
    | completing => exact hc.repository hm
    | linking => exact hc.repository hm
    | done migrated =>
      cases migrated with
      | true => exact hc.repository hm
      | false => trivial
    | _ => trivial
  refine ⟨⟨row', hrow', ?_⟩, hmade⟩
  cases t with
  | done migrated =>
    cases migrated with
    | true => exact ⟨hstatus.trans hok.1, hdest hok.2 hmade⟩
    | false => exact fun he => hok (hstatus.symm.trans he)
  | linking => exact hstatus.trans hok
  | _ => exact fun he => hok (hstatus.symm.trans he)

/-! What the statements of a task do to its row, if they are not refused. -/

/-- The status of an entry. -/
theorem meet_updateRepositoryStatus {id : Uuid} {row : MigrationRepository} (fate : Fate)
    (status : MigrationRepositoryStatus) (error : Option MigrationError) (h : s.row? id = some row) :
    (statusHandler.meet (.updateRepositoryStatus id status error) fate s).2 =
      if fate = .refused then s
      else s.updateRows id fun row => { row with status := status, error := error } := by
  have hx : (s.updateRepositoryStatus id status error).2 =
      s.updateRows id fun row => { row with status := status, error := error } := by
    rw [MigrationStore.updateRepositoryStatus, if_pos (mem_ids_of_row? h)]
  cases fate with
  | answered => exact hx
  | refused => rfl
  | lost => exact hx

/-- The repository of an entry, if it is there. -/
theorem meet_setDestination {repository : Uuid} (id : Uuid) (fate : Fate) (h : s.Holds repository) :
    (statusHandler.meet (.setDestination id repository) fate s).2 =
      if fate = .refused then s
      else s.updateRows id fun row => { row with destinationRepositoryId := some repository } := by
  have hnone : ¬ (s.site.world.repositories.get? repository).isNone := by
    rw [Option.isNone_iff_eq_none]
    intro hn
    rw [MigrationStore.Holds, hn] at h
    cases h
  have hx : (s.setDestination id repository).2 =
      s.updateRows id fun row => { row with destinationRepositoryId := some repository } := by
    rw [MigrationStore.setDestination, if_neg fun hc => hnone hc.2]
  cases fate with
  | answered => exact hx
  | refused => rfl
  | lost => exact hx

/-- A row that is written a status other than completed is not completed. -/
theorem rowOK_write {row : MigrationRepository} (status : MigrationRepositoryStatus)
    (error : Option MigrationError) (fate : Fate) (h : s.row? entry.row.id = some row)
    (hrow : row.status ≠ .completed) (hstatus : status ≠ .completed) :
    ∃ row', (statusHandler.meet (.updateRepositoryStatus entry.row.id status error) fate s).2.row?
      entry.row.id = some row' ∧ row'.status ≠ .completed := by
  rw [meet_updateRepositoryStatus fate status error h]
  split_ifs
  · exact ⟨row, h, hrow⟩
  · exact ⟨_, row?_updateRows_self (fun _ => rfl) h, hstatus⟩

/-- What a call of a site leaves of a repository. -/
theorem holds_meet {c : SiteCall} {fate : Fate} {repository : Uuid} (hc : c ≠ .deleteRow repository)
    (h : s.Holds repository) : (s.withSite (siteHandler.meet c fate s.site).2).Holds repository := by
  cases fate with
  | answered => exact holds_exec hc h
  | refused => exact h
  | lost => exact holds_exec hc h

/-- A repository that a call has inserted is there, and one that was inserted before. -/
theorem holds_of_meet {c : SiteCall} {fate : Fate} {id : Uuid} {seen : List SiteEvent}
    (hc : c ≠ .deleteRow id) (hseen : Inserted id seen → s.Holds id)
    (hin : Inserted id (⟨c, (siteHandler.meet c fate s.site).1⟩ :: seen)) :
    (s.withSite (siteHandler.meet c fate s.site).2).Holds id := by
  have hold : Inserted id seen → (s.withSite (siteHandler.meet c fate s.site).2).Holds id :=
    fun h => holds_meet hc (hseen h)
  cases fate with
  | answered =>
    rcases holds_of_inserted (Prod.ext rfl rfl) hin with h | h
    · exact hold h
    · exact h
  | refused =>
    obtain ⟨e, he, hinserts⟩ := hin
    rcases List.mem_cons.mp he with rfl | he
    · cases c <;> exact hinserts.elim
    · exact hold ⟨e, he, hinserts⟩
  | lost =>
    obtain ⟨e, he, hinserts⟩ := hin
    rcases List.mem_cons.mp he with rfl | he
    · cases c <;> exact hinserts.elim
    · exact hold ⟨e, he, hinserts⟩

/-- **A task's step.** Its row goes on telling where it is. -/
theorem taskOK_next {fate : Fate} (hfate : t.isCompleting → fate ≠ .refused)
    (h : TaskOK s entry t) :
    TaskOK (taskNext request entry fate t s).2 entry (taskNext request entry fate t s).1 := by
  obtain ⟨⟨row, hrow, hok⟩, hmade⟩ := h
  cases t with
  | marking =>
    obtain ⟨row', hrow', hstatus⟩ := rowOK_write .running none fate hrow hok nofun
    refine ⟨⟨row', hrow', rowOK_settle.mpr hstatus⟩, made_settle (obeys_migrateEntry request) ?_⟩
    rintro ⟨e, he, -⟩
    cases he
  | migrating c k =>
    obtain ⟨seen, ⟨hc, hk⟩, hin⟩ := hmade
    have hcarry : Carries s (s.withSite (siteHandler.meet c fate s.site).2) entry :=
      carries_withSite (holds_meet (hc _))
    obtain ⟨row', hrow', hstatus, -⟩ := hcarry.row row hrow
    refine ⟨⟨row', hrow', rowOK_settle.mpr fun he => hok (hstatus.symm.trans he)⟩, ?_⟩
    exact made_settle (hk _) fun h => holds_of_meet (hc _) hin h
  | completing =>
    have hstore := meet_updateRepositoryStatus fate .completed none hrow
    rw [if_neg (hfate rfl)] at hstore
    simp only [taskNext, hstore]
    exact ⟨⟨_, row?_updateRows_self (fun _ => rfl) hrow, rfl⟩, hmade⟩
  | linking =>
    have hstore := meet_setDestination entry.row.id fate hmade
    rw [if_neg (hfate rfl)] at hstore
    simp only [taskNext, hstore]
    exact ⟨⟨_, row?_updateRows_self (fun _ => rfl) hrow, hok, rfl⟩, hmade⟩
  | failing e =>
    obtain ⟨row', hrow', hstatus⟩ := rowOK_write .failed (some (.app e)) fate hrow hok
      nofun
    exact ⟨⟨row', hrow', hstatus⟩, trivial⟩
  | done migrated => exact ⟨⟨row, hrow, hok⟩, hmade⟩
  | panicked => exact ⟨⟨row, hrow, hok⟩, hmade⟩

/-- The other entries are as they were. -/
theorem carries_next {fate : Fate} {other : MigrationEntry} (h : TaskOK s entry t)
    (hne : other.row.id ≠ entry.row.id) :
    Carries s (taskNext request entry fate t s).2 other := by
  obtain ⟨⟨row, hrow, -⟩, hmade⟩ := h
  have hstatus : ∀ status error, Carries s
      (statusHandler.meet (.updateRepositoryStatus entry.row.id status error) fate s).2 other := by
    intro status error
    rw [meet_updateRepositoryStatus fate status error hrow]
    split_ifs
    · exact .refl s other
    · exact carries_updateRows (fun _ => rfl) hne
  cases t with
  | marking => exact hstatus _ _
  | migrating c k =>
    obtain ⟨seen, ⟨hc, -⟩, -⟩ := hmade
    exact carries_withSite (holds_meet (hc _))
  | completing => exact hstatus _ _
  | linking =>
    have hstore := meet_setDestination entry.row.id fate hmade
    simp only [taskNext, hstore]
    split_ifs
    · exact .refl s other
    · exact carries_updateRows (fun _ => rfl) hne
  | failing e => exact hstatus _ _
  | done migrated => exact .refl s other
  | panicked => exact .refl s other

end Task

/-! ### The run -/

/-- A store whose rows are those of another, as far as migrations and keys go. -/
structure SameRows (s s' : MigrationStore) : Prop where
  migrations : s'.migrations = s.migrations
  keys : s'.repositories.map MigrationRepository.keys = s.repositories.map MigrationRepository.keys

section SameRows

variable {s s' : MigrationStore}

theorem SameRows.refl (s : MigrationStore) : SameRows s s := ⟨rfl, rfl⟩

theorem sameRows_map {f : MigrationRepository → MigrationRepository}
    (hf : ∀ row, (f row).keys = row.keys) (hm : s'.migrations = s.migrations)
    (hr : s'.repositories = s.repositories.map f) : SameRows s s' := by
  refine ⟨hm, ?_⟩
  rw [hr, List.map_map]
  exact List.map_congr_left fun row _ => hf row

theorem sameRows_withSite (site : Storage) : SameRows s (s.withSite site) :=
  sameRows_map (fun row => by split_ifs <;> rfl) rfl rfl

theorem sameRows_updateRows {id : Uuid} {f : MigrationRepository → MigrationRepository}
    (hf : ∀ row, (f row).keys = row.keys) : SameRows s (s.updateRows id f) :=
  sameRows_map (fun row => by split_ifs <;> simp [hf]) rfl rfl

/-- The statements of a task. -/
theorem sameRows_meet {c : StatusCall} {fate : Fate} (hc : ∀ id status, c ≠ .updateStatus id status) :
    SameRows s (statusHandler.meet c fate s).2 := by
  have hx : SameRows s (statusHandler.exec c s).2 := by
    cases c with
    | updateStatus id status => exact absurd rfl (hc id status)
    | updateRepositoryStatus id status error =>
      simp only [statusHandler, MigrationStore.updateRepositoryStatus]
      split_ifs
      · exact sameRows_updateRows fun _ => rfl
      · exact .refl s
    | setDestination id repository =>
      simp only [statusHandler, MigrationStore.setDestination]
      split_ifs
      · exact .refl s
      · exact sameRows_updateRows fun _ => rfl
  cases fate with
  | answered => exact hx
  | refused => exact .refl s
  | lost => exact hx

theorem sameRows_next (entry : MigrationEntry) (fate : Fate) (t : TaskState) (s : MigrationStore) :
    SameRows s (taskNext request entry fate t s).2 := by
  cases t with
  | migrating c k => exact sameRows_withSite _
  | done migrated => exact .refl s
  | panicked => exact .refl s
  | _ => exact sameRows_meet fun _ _ => nofun

end SameRows

/-- Each task is where the row of its entry tells. -/
structure Spawned (S : Migrating) : Prop where
  length : S.tasks.length = request.migrationRepositories.length
  tasks : ∀ (n : ℕ) (entry : MigrationEntry) (t : TaskState),
    request.migrationRepositories[n]? = some entry → S.tasks[n]? = some t → TaskOK S.store entry t

/-- The first tasks have ended, and `allSucceeded` tells whether all of them made
their repositories. -/
structure Joined (tasks : List TaskState) (next : ℕ) (allSucceeded : Bool) : Prop where
  ended : ∀ (n : ℕ) (t : TaskState), n < next → tasks[n]? = some t → t.ended
  succeeded : allSucceeded = true ↔
    ∀ (n : ℕ) (t : TaskState), n < next → tasks[n]? = some t → t.succeeded

/-- The migration is marked as completed. -/
def MarkedCompleted (s : MigrationStore) (migration : Uuid) : Prop :=
  ∃ m ∈ s.migrations, m.id = migration ∧ m.status = .completed

/-- What holds at each point of the request. -/
def Phase (S : Migrating) : Prop :=
  match S.parent with
  | .askingToken | .markingRunning => S.tasks = [] ∧ ∀ entry ∈ request.migrationRepositories,
    ∃ row, S.store.row? entry.row.id = some row ∧ row.status ≠ .completed
  | .joining next allSucceeded _ => Spawned request S ∧ Joined S.tasks next allSucceeded
  | .finishing allSucceeded _ =>
    Spawned request S ∧ Joined S.tasks S.tasks.length allSucceeded
  | .returned (.ok _) => Spawned request S ∧ ∃ allSucceeded,
    Joined S.tasks S.tasks.length allSucceeded ∧
      (MarkedCompleted S.store request.migrationId ↔ allSucceeded = true)
  | .returned (.error _) => S.tasks = [] ∨ Spawned request S

/-- The migration is there, its rows are the entries, each of them once, and the
request is at one of its points. -/
structure Sound (S : Migrating) : Prop where
  migration : request.migrationId ∈ S.store.migrations.map Migration.id
  unique : (S.store.repositories.map MigrationRepository.id).Nodup
  entries : ∀ row ∈ S.store.repositories, row.migrationId = request.migrationId ↔
    ∃ entry ∈ request.migrationRepositories, entry.row.id = row.id
  distinct : (request.migrationRepositories.map fun entry => entry.row.id).Nodup
  phase : Phase request S

section Run

variable {request} {S S' : Migrating}

/-- The tasks are as many, and those that have ended stay. -/
structure EndedStay (tasks tasks' : List TaskState) : Prop where
  length : tasks'.length = tasks.length
  ended : ∀ (n : ℕ) (t : TaskState), tasks[n]? = some t → t.ended → tasks'[n]? = some t

theorem EndedStay.refl (tasks : List TaskState) : EndedStay tasks tasks := ⟨rfl, fun _ _ h _ => h⟩

/-- A task that has not ended moves. -/
theorem endedStay_set {tasks : List TaskState} {n : ℕ} {t t' : TaskState} (hn : tasks[n]? = some t)
    (ht : t.ended → t' = t) : EndedStay tasks (tasks.set n t') := by
  refine ⟨List.length_set, fun j u hj hu => ?_⟩
  rcases eq_or_ne n j with rfl | hne
  · obtain rfl := Option.some.inj (hn.symm.trans hj)
    rw [List.getElem?_set_self (List.getElem?_eq_some_iff.mp hn).1, ht hu]
  · rw [List.getElem?_set_ne hne]
    exact hj

theorem Joined.stay {tasks tasks' : List TaskState} {next : ℕ} {allSucceeded : Bool}
    (h : Joined tasks next allSucceeded) (hs : EndedStay tasks tasks') :
    Joined tasks' next allSucceeded := by
  have hsame : ∀ n < next, tasks'[n]? = tasks[n]? := by
    intro n hn
    cases ht : tasks[n]? with
    | some t => exact hs.ended n t ht (h.ended n t hn ht)
    | none =>
      rw [List.getElem?_eq_none_iff] at ht ⊢
      rw [hs.length]
      exact ht
  refine ⟨fun n t hn ht => h.ended n t hn (hsame n hn ▸ ht), h.succeeded.trans ?_⟩
  exact ⟨fun hall n t hn ht => hall n t hn (hsame n hn ▸ ht),
    fun hall n t hn ht => hall n t hn ((hsame n hn).symm ▸ ht)⟩

/-- A move that is not the request's. -/
theorem Phase.move (h : Phase request S) (hparent : S'.parent = S.parent)
    (hmigrations : S'.store.migrations = S.store.migrations) (hstay : EndedStay S.tasks S'.tasks)
    (hspawned : Spawned request S → Spawned request S')
    (hcarry : S.tasks = [] →
      ∀ entry ∈ request.migrationRepositories, Carries S.store S'.store entry) :
    Phase request S' := by
  have hnil : S.tasks = [] → S'.tasks = [] := fun hs =>
    List.length_eq_zero_iff.mp (hstay.length.trans (by rw [hs, List.length_nil]))
  have hplanned : (S.tasks = [] ∧ ∀ entry ∈ request.migrationRepositories,
      ∃ row, S.store.row? entry.row.id = some row ∧ row.status ≠ .completed) →
      S'.tasks = [] ∧ ∀ entry ∈ request.migrationRepositories,
        ∃ row, S'.store.row? entry.row.id = some row ∧ row.status ≠ .completed := by
    rintro ⟨hs, hrows⟩
    refine ⟨hnil hs, fun entry hentry => ?_⟩
    obtain ⟨row, hrow, hstatus⟩ := hrows entry hentry
    obtain ⟨row', hrow', heq, -⟩ := (hcarry hs entry hentry).row row hrow
    exact ⟨row', hrow', fun he => hstatus (heq.symm.trans he)⟩
  unfold Phase at h ⊢
  rw [hparent]
  cases hp : S.parent with
  | askingToken =>
    rw [hp] at h
    exact hplanned h
  | markingRunning =>
    rw [hp] at h
    exact hplanned h
  | joining next allSucceeded migrated =>
    rw [hp] at h
    exact ⟨hspawned h.1, h.2.stay hstay⟩
  | finishing allSucceeded migrated =>
    rw [hp] at h
    refine ⟨hspawned h.1, ?_⟩
    rw [hstay.length]
    exact h.2.stay hstay
  | returned r =>
    rw [hp] at h
    cases r with
    | error e => exact h.imp hnil hspawned
    | ok migrated =>
      obtain ⟨hs, allSucceeded, hjoined, hmarked⟩ := h
      refine ⟨hspawned hs, allSucceeded, ?_, ?_⟩
      · rw [hstay.length]
        exact hjoined.stay hstay
      · rw [MarkedCompleted, hmigrations]
        exact hmarked

/-- What the run keeps of the keys. -/
theorem Sound.move (h : Sound request S) (hsame : SameRows S.store S'.store)
    (hphase : Phase request S') : Sound request S' := by
  have hids : S'.store.repositories.map MigrationRepository.id =
      S.store.repositories.map MigrationRepository.id := by
    have hfst := congrArg (List.map Prod.fst) hsame.keys
    rwa [List.map_map, List.map_map] at hfst
  refine ⟨by rw [hsame.migrations]; exact h.migration, hids ▸ h.unique, fun row' hrow' => ?_,
    h.distinct, hphase⟩
  have hmem : row'.keys ∈ S.store.repositories.map MigrationRepository.keys :=
    hsame.keys ▸ List.mem_map_of_mem hrow'
  obtain ⟨row, hrow, hkeys⟩ := List.mem_map.mp hmem
  obtain ⟨hid, hmigration⟩ := Prod.mk.inj hkeys
  rw [← hmigration, ← hid]
  exact h.entries row hrow

/-- Entries of different numbers have different rows. -/
theorem Sound.ne_of_ne (h : Sound request S) {i j : ℕ} {e e' : MigrationEntry}
    (hi : request.migrationRepositories[i]? = some e)
    (hj : request.migrationRepositories[j]? = some e') (hij : i ≠ j) : e.row.id ≠ e'.row.id := by
  intro heq
  obtain ⟨hlt, rfl⟩ := List.getElem?_eq_some_iff.mp hi
  obtain ⟨hlt', rfl⟩ := List.getElem?_eq_some_iff.mp hj
  have hi' : i < (request.migrationRepositories.map fun entry => entry.row.id).length := by
    simpa using hlt
  have hj' : j < (request.migrationRepositories.map fun entry => entry.row.id).length := by
    simpa using hlt'
  have hids : (request.migrationRepositories.map fun entry => entry.row.id)[i] =
      (request.migrationRepositories.map fun entry => entry.row.id)[j] := by simpa using heq
  exact hij (h.distinct.getElem_inj_iff.mp hids)

/-! The moves of the tasks and of others. -/

theorem sound_task (h : Sound request S) {n : ℕ} {fate : Fate}
    (hg : Faithful request S (.task n fate)) : Sound request (migratingNext request (.task n fate) S) := by
  simp only [migratingNext]
  split
  · rename_i entry t hentry ht
    have hstay : EndedStay S.tasks (S.tasks.set n (taskNext request entry fate t S.store).1) := by
      refine endedStay_set ht fun hended => ?_
      cases t with
      | done migrated => rfl
      | panicked => rfl
      | _ => cases hended
    refine h.move (sameRows_next request entry fate t S.store) (h.phase.move rfl ?_ hstay
      (fun hs => ⟨hstay.length.trans hs.length, fun j e u hj hu => ?_⟩) fun hnil => ?_)
    · exact (sameRows_next request entry fate t S.store).migrations
    · have hok := hs.tasks n entry t hentry ht
      rcases eq_or_ne j n with rfl | hne
      · obtain rfl := Option.some.inj (hentry.symm.trans hj)
        have hu : (S.tasks.set j (taskNext request entry fate t S.store).1)[j]? = some u := hu
        rw [List.getElem?_set_self (List.getElem?_eq_some_iff.mp ht).1] at hu
        obtain rfl := Option.some.inj hu
        exact taskOK_next request (hg t ht) hok
      · have hu : (S.tasks.set n (taskNext request entry fate t S.store).1)[j]? = some u := hu
        rw [List.getElem?_set_ne hne.symm] at hu
        exact (hs.tasks j e u hj hu).carry (carries_next request hok (h.ne_of_ne hj hentry hne))
    · rw [hnil] at ht
      cases ht
  · exact h

theorem sound_panic (h : Sound request S) {n : ℕ} (hg : Faithful request S (.panic n)) :
    Sound request (migratingNext request (.panic n) S) := by
  simp only [migratingNext]
  split
  · rename_i t ht
    split_ifs with hended
    · exact h
    · have hstay : EndedStay S.tasks (S.tasks.set n .panicked) :=
        endedStay_set ht fun he => absurd he hended
      refine h.move (.refl _) (h.phase.move rfl rfl hstay
        (fun hs => ⟨hstay.length.trans hs.length, fun j e u hj hu => ?_⟩) fun hnil => ?_)
      · rcases eq_or_ne j n with rfl | hne
        · have hu : (S.tasks.set j .panicked)[j]? = some u := hu
          rw [List.getElem?_set_self (List.getElem?_eq_some_iff.mp ht).1] at hu
          obtain rfl := Option.some.inj hu
          obtain ⟨row, hrow, hok⟩ := (hs.tasks j e t hj ht).row
          refine ⟨⟨row, hrow, ?_⟩, trivial⟩
          have hlink := hg t ht
          cases t with
          | linking => cases hlink
          | done migrated => exact absurd rfl hended
          | _ => exact hok
        · have hu : (S.tasks.set n .panicked)[j]? = some u := hu
          rw [List.getElem?_set_ne hne.symm] at hu
          exact hs.tasks j e u hj hu
      · rw [hnil] at ht
        cases ht
  · exact h

theorem sound_other (h : Sound request S) {c : SiteCall} (hg : Faithful request S (.other c)) :
    Sound request (migratingNext request (.other c) S) := by
  have hcarry : ∀ entry ∈ request.migrationRepositories,
      Carries S.store (S.store.withSite (siteExec c S.store.site).2) entry := fun entry hentry =>
    carries_withSite fun hholds => holds_exec (hg entry hentry) hholds
  refine h.move (sameRows_withSite _) (h.phase.move rfl rfl (.refl _)
    (fun hs => ⟨hs.length, fun j e u hj hu => ?_⟩) fun _ => hcarry)
  exact (hs.tasks j e u hj hu).carry (hcarry e (List.mem_of_getElem? hj))

/-! The moves of the request. -/

/-- The status of a migration. -/
theorem exec_updateStatus {s : MigrationStore} {id : Uuid} (status : MigrationStatus)
    (hid : id ∈ s.migrations.map Migration.id) :
    s.updateStatus id status = (.ok (), { s with migrations := s.migrations.map fun m =>
      if m.id = id then { m with status := status } else m }) := by
  rw [MigrationStore.updateStatus, if_pos hid]

/-- What the statement keeps, whatever becomes of it. -/
theorem meet_updateStatus {s : MigrationStore} {id : Uuid} (status : MigrationStatus) (fate : Fate)
    (hid : id ∈ s.migrations.map Migration.id) :
    (statusHandler.meet (.updateStatus id status) fate s).2.repositories = s.repositories ∧
      (statusHandler.meet (.updateStatus id status) fate s).2.site = s.site ∧
      (statusHandler.meet (.updateStatus id status) fate s).2.migrations.map Migration.id =
        s.migrations.map Migration.id := by
  have hids : (s.migrations.map fun m => if m.id = id then { m with status := status } else m).map
      Migration.id = s.migrations.map Migration.id := by
    rw [List.map_map]
    exact List.map_congr_left fun m _ => by
      simp only [Function.comp_apply]
      split_ifs <;> rfl
  have hx := congrArg Prod.snd (exec_updateStatus (s := s) status hid)
  cases fate with
  | refused => exact ⟨rfl, rfl, rfl⟩
  | answered =>
    change (s.updateStatus id status).2.repositories = _ ∧ (s.updateStatus id status).2.site = _ ∧
      (s.updateStatus id status).2.migrations.map Migration.id = _
    rw [hx]
    exact ⟨rfl, rfl, hids⟩
  | lost =>
    change (s.updateStatus id status).2.repositories = _ ∧ (s.updateStatus id status).2.site = _ ∧
      (s.updateStatus id status).2.migrations.map Migration.id = _
    rw [hx]
    exact ⟨rfl, rfl, hids⟩

/-- The status that was written, if the statement is answered. -/
theorem markedCompleted_updateStatus {s : MigrationStore} {id : Uuid} {status : MigrationStatus}
    {fate : Fate} {a : Unit} (hid : id ∈ s.migrations.map Migration.id)
    (hok : (statusHandler.meet (.updateStatus id status) fate s).1 = .ok a) :
    MarkedCompleted (statusHandler.meet (.updateStatus id status) fate s).2 id ↔
      status = .completed := by
  cases fate with
  | refused => cases hok
  | lost => cases hok
  | answered =>
    change MarkedCompleted (s.updateStatus id status).2 id ↔ _
    rw [exec_updateStatus status hid]
    unfold MarkedCompleted
    constructor
    · rintro ⟨m, hm, hmid, hstatus⟩
      obtain ⟨m', hm', rfl⟩ := List.mem_map.mp hm
      split_ifs at hmid hstatus with heq
      · exact hstatus
      · exact absurd hmid heq
    · rintro rfl
      obtain ⟨m, hm, hmid⟩ := List.mem_map.mp hid
      exact ⟨_, List.mem_map_of_mem hm, by rw [if_pos hmid]; exact ⟨hmid, rfl⟩⟩

/-- The keys, after a statement on the migration. -/
theorem Sound.mark (h : Sound request S) (status : MigrationStatus) (fate : Fate)
    (hs : S'.store = (statusHandler.meet (.updateStatus request.migrationId status) fate S.store).2)
    (hphase : Phase request S') : Sound request S' := by
  obtain ⟨hrows, -, hids⟩ := meet_updateStatus status fate h.migration
  refine ⟨?_, ?_, ?_, h.distinct, hphase⟩
  · rw [hs, hids]
    exact h.migration
  · rw [hs, hrows]
    exact h.unique
  · rw [hs, hrows]
    exact h.entries

/-- The tasks do not see the status of the migration. -/
theorem Spawned.mark (h : Spawned request S) (hm : request.migrationId ∈ S.store.migrations.map
    Migration.id) (status : MigrationStatus) (fate : Fate)
    (hs : S'.store = (statusHandler.meet (.updateStatus request.migrationId status) fate S.store).2)
    (htasks : S'.tasks = S.tasks) : Spawned request S' := by
  obtain ⟨hrows, hsite, -⟩ := meet_updateStatus status fate hm
  refine ⟨htasks ▸ h.length, fun n entry t hentry ht => ?_⟩
  rw [hs]
  exact (h.tasks n entry t hentry (htasks ▸ ht)).carry (carries_of_eq hrows hsite)

theorem joined_zero (tasks : List TaskState) : Joined tasks 0 true :=
  ⟨fun n _ hn => absurd hn (by omega), iff_of_true rfl fun n _ hn => absurd hn (by omega)⟩

/-- One more task is joined. -/
theorem Joined.succ {tasks : List TaskState} {next : ℕ} {allSucceeded : Bool} {t : TaskState}
    (h : Joined tasks next allSucceeded) (ht : tasks[next]? = some t) (hended : t.ended) :
    Joined tasks (next + 1) (allSucceeded && t.succeeded) := by
  refine ⟨fun n u hn hu => ?_, ?_⟩
  · rcases Nat.lt_succ_iff_lt_or_eq.mp hn with hn | rfl
    · exact h.ended n u hn hu
    · obtain rfl := Option.some.inj (ht.symm.trans hu)
      exact hended
  · rw [Bool.and_eq_true, h.succeeded]
    constructor
    · rintro ⟨hall, hlast⟩ n u hn hu
      rcases Nat.lt_succ_iff_lt_or_eq.mp hn with hn | rfl
      · exact hall n u hn hu
      · obtain rfl := Option.some.inj (ht.symm.trans hu)
        exact hlast
    · intro hall
      exact ⟨fun n u hn hu => hall n u (by omega) hu, hall next t (by omega) ht⟩

/-- All tasks are joined. -/
theorem Joined.all {tasks : List TaskState} {next : ℕ} {allSucceeded : Bool}
    (h : Joined tasks next allSucceeded) (hnone : tasks[next]? = none) :
    Joined tasks tasks.length allSucceeded := by
  have hle := List.getElem?_eq_none_iff.mp hnone
  refine ⟨fun n t hn ht => h.ended n t (by omega) ht, h.succeeded.trans ?_⟩
  refine ⟨fun hall n t hn ht => hall n t (by omega) ht, fun hall n t _ ht => ?_⟩
  exact hall n t (List.getElem?_eq_some_iff.mp ht).1 ht

/-- The migration is marked running, and the tasks are spawned. -/
theorem sound_markingRunning (h : Sound request S) (hp : S.parent = .markingRunning) {fate : Fate} :
    Sound request (parentNext request fate S) := by
  have hphase := h.phase
  unfold Phase at hphase
  rw [hp] at hphase
  obtain ⟨hnil, hrows⟩ := hphase
  simp only [parentNext, hp]
  split
  · exact h.mark .running fate rfl (.inl hnil)
  · refine h.mark .running fate rfl ⟨⟨List.length_map _, fun n entry t hentry ht => ?_⟩, joined_zero _⟩
    have ht : (request.migrationRepositories.map fun _ => TaskState.marking)[n]? = some t := ht
    rw [List.getElem?_map, hentry, Option.map_some] at ht
    obtain rfl := Option.some.inj ht
    obtain ⟨row, hrow, hstatus⟩ := hrows entry (List.mem_of_getElem? hentry)
    have hok : TaskOK S.store entry .marking := ⟨⟨row, hrow, hstatus⟩, trivial⟩
    obtain ⟨hrepositories, hsite, -⟩ := meet_updateStatus .running fate h.migration
    exact hok.carry (carries_of_eq hrepositories hsite)

/-- One task is joined if it has ended. -/
theorem sound_joining {next : ℕ} {allSucceeded : Bool} {migrated : List String} (h : Sound request S)
    (hp : S.parent = .joining next allSucceeded migrated) {fate : Fate} :
    Sound request (parentNext request fate S) := by
  have hphase := h.phase
  unfold Phase at hphase
  rw [hp] at hphase
  obtain ⟨hs, hj⟩ := hphase
  have hto : ∀ parent, Phase request { S with parent := parent } →
      Sound request { S with parent := parent } :=
    fun parent hph => ⟨h.migration, h.unique, h.entries, h.distinct, hph⟩
  have hspawned : ∀ parent, Spawned request { S with parent := parent } :=
    fun parent => ⟨hs.length, hs.tasks⟩
  have hjoin : ∀ {t : TaskState} {all : Bool} (migrated : List String), S.tasks[next]? = some t →
      t.ended = true → (allSucceeded && t.succeeded) = all →
        Sound request { S with parent := .joining (next + 1) all migrated } := by
    rintro t _ migrated ht hended rfl
    exact hto _ ⟨hspawned _, hj.succ ht hended⟩
  simp only [parentNext, hp]
  split
  · rename_i hnone
    exact hto _ ⟨hspawned _, hj.all hnone⟩
  · rename_i ht
    exact hjoin _ ht rfl (Bool.and_true _)
  · rename_i ht
    exact hjoin _ ht rfl (Bool.and_false _)
  · rename_i ht
    exact hjoin _ ht rfl (Bool.and_false _)
  · exact h

/-- The migration is marked with how its tasks ended. -/
theorem sound_finishing {allSucceeded : Bool} {migrated : List String} (h : Sound request S)
    (hp : S.parent = .finishing allSucceeded migrated) {fate : Fate} :
    Sound request (parentNext request fate S) := by
  have hphase := h.phase
  unfold Phase at hphase
  rw [hp] at hphase
  obtain ⟨hs, hj⟩ := hphase
  simp only [parentNext, hp]
  refine h.mark (finalStatus allSucceeded) fate rfl ?_
  have hspawned : ∀ r, Spawned request ⟨(statusHandler.meet
      (.updateStatus request.migrationId (finalStatus allSucceeded)) fate S.store).2,
      .returned r, S.tasks⟩ := fun r => hs.mark h.migration (finalStatus allSucceeded) fate rfl rfl
  unfold Phase
  dsimp only
  cases hout : (statusHandler.meet (.updateStatus request.migrationId (finalStatus allSucceeded))
      fate S.store).1 with
  | error e => exact .inr (hspawned _)
  | ok a =>
    refine ⟨hspawned _, allSucceeded, hj, ?_⟩
    refine (markedCompleted_updateStatus h.migration hout).trans ?_
    cases allSucceeded <;> simp [finalStatus]

/-- **The request's step.** -/
theorem sound_parent (h : Sound request S) {fate : Fate} :
    Sound request (migratingNext request (.parent fate) S) := by
  show Sound request (parentNext request fate S)
  cases hp : S.parent with
  | askingToken =>
    have hphase := h.phase
    unfold Phase at hphase
    rw [hp] at hphase
    simp only [parentNext, hp]
    split_ifs
    · exact ⟨h.migration, h.unique, h.entries, h.distinct, hphase⟩
    · exact ⟨h.migration, h.unique, h.entries, h.distinct, .inl hphase.1⟩
  | markingRunning => exact sound_markingRunning h hp
  | joining next allSucceeded migrated => exact sound_joining h hp
  | finishing allSucceeded migrated => exact sound_finishing h hp
  | returned r =>
    simp only [parentNext, hp]
    exact h

/-- **Soundness.** Every faithful step keeps it. -/
theorem sound_next (h : Sound request S) (e : MigratingEvent) (hg : Faithful request S e) :
    Sound request (migratingNext request e S) := by
  cases e with
  | parent fate => exact sound_parent h
  | task n fate => exact sound_task h hg
  | panic n => exact sound_panic h hg
  | other c => exact sound_other h hg

theorem sound_planned (h : Planned request S) : Sound request S := by
  have hmem : ∀ row, row ∈ request.migrationRepositories.map MigrationEntry.row ↔
      row ∈ S.store.repositories ∧ row.migrationId = request.migrationId := by
    intro row
    rw [← h.entries, List.mem_filter, decide_eq_true_eq]
  have hrow : ∀ entry ∈ request.migrationRepositories, entry.row ∈ S.store.repositories ∧
      entry.row.migrationId = request.migrationId :=
    fun entry hentry => (hmem _).mp (List.mem_map_of_mem hentry)
  refine ⟨h.migration, h.unique, fun row hrows => ⟨fun hid => ?_, ?_⟩, ?_, ?_⟩
  · obtain ⟨entry, hentry, rfl⟩ := List.mem_map.mp ((hmem row).mpr ⟨hrows, hid⟩)
    exact ⟨entry, hentry, rfl⟩
  · rintro ⟨entry, hentry, hid⟩
    have hsame := row?_of_mem h.unique hrows
    rw [← hid, row?_of_mem h.unique (hrow entry hentry).1] at hsame
    rw [← Option.some.inj hsame]
    exact (hrow entry hentry).2
  · have hsub : (S.store.repositories.filter fun row =>
        decide (row.migrationId = request.migrationId)).Sublist S.store.repositories :=
      List.filter_sublist
    have hnodup := h.unique.sublist (hsub.map MigrationRepository.id)
    rw [h.entries, List.map_map] at hnodup
    exact hnodup
  · unfold Phase
    rw [h.parent]
    refine ⟨h.tasks, fun entry hentry => ⟨_, row?_of_mem h.unique (hrow entry hentry).1, ?_⟩⟩
    rw [h.pending entry hentry]
    nofun

/-- **Runs.** A run of faithful steps is sound. -/
theorem sound_run (h : Reach (Planned request) (migratingNext request) (Faithful request) S) :
    Sound request S :=
  h.invariant (fun _ => sound_planned) fun _ e hs hg => sound_next hs e hg

/-- The row of an ended task is completed if the task has succeeded. -/
theorem RowOK.completed_iff {entry : MigrationEntry} {row : MigrationRepository} {t : TaskState}
    (h : RowOK entry row t) (hended : t.ended = true) : row.status = .completed ↔ t.succeeded = true := by
  cases t with
  | done succeeded =>
    cases succeeded with
    | true => exact iff_of_true h.1 rfl
    | false => exact iff_of_false h Bool.false_ne_true
  | panicked => exact iff_of_false h Bool.false_ne_true
  | marking | migrating | completing | linking | failing => cases hended

/-- The row of each task is one of the migration. -/
theorem Sound.row_of_task (h : Sound request S) (hs : Spawned request S) {n : ℕ} {t : TaskState}
    (ht : S.tasks[n]? = some t) :
    ∃ row ∈ S.store.repositories, row.migrationId = request.migrationId ∧
      ∃ entry, RowOK entry row t := by
  have hlt : n < request.migrationRepositories.length :=
    hs.length ▸ (List.getElem?_eq_some_iff.mp ht).1
  obtain ⟨⟨row, hrow, hok⟩, -⟩ := hs.tasks n _ t (List.getElem?_eq_getElem hlt) ht
  have hmem : row ∈ S.store.repositories := List.mem_of_find?_eq_some hrow
  exact ⟨row, hmem, (h.entries row hmem).mpr
    ⟨_, List.getElem_mem hlt, (MigrationStore.id_of_row? hrow).symm⟩, _, hok⟩

/-- Each row of the migration has its task. -/
theorem Sound.task_of_row (h : Sound request S) (hs : Spawned request S) {row : MigrationRepository}
    (hrow : row ∈ S.store.repositories) (hid : row.migrationId = request.migrationId) :
    ∃ (n : ℕ) (entry : MigrationEntry) (t : TaskState), S.tasks[n]? = some t ∧ n < S.tasks.length ∧
      RowOK entry row t ∧ Made S.store entry.repositoryId t := by
  obtain ⟨entry, hentry, hentryId⟩ := (h.entries row hrow).mp hid
  obtain ⟨n, hn⟩ := List.mem_iff_getElem?.mp hentry
  have hlt : n < S.tasks.length := hs.length ▸ (List.getElem?_eq_some_iff.mp hn).1
  have ht : S.tasks[n]? = some S.tasks[n] := List.getElem?_eq_getElem hlt
  obtain ⟨⟨row', hrow', hok⟩, hmade⟩ := hs.tasks n entry _ hn ht
  have hsame := row?_of_mem h.unique hrow
  rw [← hentryId, hrow'] at hsame
  obtain rfl := Option.some.inj hsame
  exact ⟨n, entry, _, ht, hlt, hok, hmade⟩

/-- What is sound tells the truth once the request has ended well. -/
theorem Sound.truthful (h : Sound request S) {migrated : List String}
    (hr : S.parent = .returned (.ok migrated)) : Truthful request.migrationId S.store := by
  have hphase := h.phase
  unfold Phase at hphase
  rw [hr] at hphase
  obtain ⟨hs, allSucceeded, hjoined, hmarked⟩ := hphase
  refine ⟨hmarked.trans (hjoined.succeeded.trans ⟨fun hall row hrow hid => ?_, fun hall n t hn ht => ?_⟩),
    fun row hrow hid hstatus => ?_⟩
  · obtain ⟨n, entry, t, ht, hlt, hok, -⟩ := h.task_of_row hs hrow hid
    exact (hok.completed_iff (hjoined.ended n t hlt ht)).mpr (hall n t hlt ht)
  · obtain ⟨row, hrow, hid, entry, hok⟩ := h.row_of_task hs ht
    exact (hok.completed_iff (hjoined.ended n t hn ht)).mp (hall row hrow hid)
  · obtain ⟨n, entry, t, ht, hlt, hok, hmade⟩ := h.task_of_row hs hrow hid
    have hsucceeded := (hok.completed_iff (hjoined.ended n t hlt ht)).mp hstatus
    cases t with
    | done succeeded =>
      cases succeeded with
      | true => exact ⟨entry.repositoryId, hok.2, hmade⟩
      | false => cases hsucceeded
    | _ => cases hsucceeded

end Run

/-- **Statuses.** In a run in which no write that completes an entry is refused, none
of the tasks dies between the two of them, and no repository of the migration is
deleted, the statuses tell the truth once the request has ended well. -/
theorem truthful_run (request : MigrateGitHubRepositoriesRequest) {S : Migrating}
    (hrun : Reach (Planned request) (migratingNext request) (Faithful request) S)
    {migrated : List String} (hr : S.parent = .returned (.ok migrated)) :
    Truthful request.migrationId S.store :=
  (sound_run hrun).truthful hr

/-! ### One repository -/

/-- The plan of one repository. -/
def plannedStore : MigrationStore where
  site := octocatStore.site
  installations := []
  migrations := [⟨10, 1, 0, "octocat", .user, "alice", .user, .pending⟩]
  repositories := [⟨11, 10, "octocat/spoon", 1, none, "alice/spoon", none, .privateRepo, .pending, none⟩]
  listed _ := []

def spoonRequest : MigrateGitHubRepositoriesRequest :=
  ⟨10, 7, 0, "alice", .user, [⟨⟨11, 10, "octocat/spoon", 1, none, "alice/spoon", none, .privateRepo,
    .pending, none⟩, 20⟩], false⟩

def plannedMigrating : Migrating := ⟨plannedStore, .askingToken, []⟩

theorem planned_plannedMigrating : Planned spoonRequest plannedMigrating where
  parent := rfl
  tasks := rfl
  migration := by decide +kernel
  unique := by decide +kernel
  entries := by decide +kernel
  pending := by decide +kernel

/-- The request up to its join, and the task's calls with the two writes of a
completed entry. -/
def spoonEvents (completing : Fate) : List MigratingEvent :=
  [.parent .answered, .parent .answered, .task 0 .answered, .task 0 .answered, .task 0 .answered,
    .task 0 .answered, .task 0 .answered, .task 0 .answered, .task 0 .answered, .task 0 .answered,
    .task 0 completing, .task 0 .answered, .parent .answered, .parent .answered, .parent .answered]

theorem truthful_run_spoon : ∃ S : Migrating, S.parent = .returned (.ok ["spoon"]) ∧
    S.store.repositories.map MigrationRepository.status = [.completed] ∧ Truthful 10 S.store :=
  have hrun := reach_play (.start planned_plannedMigrating)
    (show Guarded (migratingNext spoonRequest) (Faithful spoonRequest) (spoonEvents .answered)
      plannedMigrating by decide +kernel)
  have hreturned : (Lib.play (migratingNext spoonRequest) (spoonEvents .answered)
      plannedMigrating).parent = .returned (.ok ["spoon"]) := by decide +kernel
  ⟨_, hreturned, by decide +kernel, truthful_run spoonRequest hrun hreturned⟩

/-- The write that completes the entry is refused: the migration is marked as
completed, and its entry is left as running. -/
theorem not_truthful_run : ¬ ∀ (request : MigrateGitHubRepositoriesRequest) (S : Migrating)
    (migrated : List String),
    Reach (Planned request) (migratingNext request) (fun _ _ => True) S →
      S.parent = .returned (.ok migrated) → Truthful request.migrationId S.store := by
  intro hall
  have htruthful := hall spoonRequest (Lib.play (migratingNext spoonRequest) (spoonEvents .refused)
    plannedMigrating) ["spoon"] (reach_play (.start planned_plannedMigrating) guarded_true)
    (by decide +kernel)
  have hmarked : ∃ m ∈ (Lib.play (migratingNext spoonRequest) (spoonEvents .refused)
      plannedMigrating).store.migrations, m.id = 10 ∧ m.status = .completed := by decide +kernel
  have hrunning : ∃ row ∈ (Lib.play (migratingNext spoonRequest) (spoonEvents .refused)
      plannedMigrating).store.repositories, row.migrationId = 10 ∧ row.status = .running := by
    decide +kernel
  obtain ⟨row, hrow, hid, hstatus⟩ := hrunning
  have hcompleted := htruthful.status.mp hmarked row hrow hid
  rw [hstatus] at hcompleted
  cases hcompleted

end Migrate
end Gitdot
