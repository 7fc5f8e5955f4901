/-
# Planning a migration

`create_github_migration` checks the installation and the destination, asks GitHub
what the installation lists, and inserts the row of the migration. Then it inserts
one row for each repository that the request names, and stops at the first that
GitHub does not list. Nothing takes back what was inserted: no transaction spans
the statements, and no clean-up follows a failure.

So a request leaves nothing exactly if it fails before its migration is there, and
all of its rows exactly if nothing stops it after that (`all_or_nothing_iff`).

Key definitions: `Migration`, `MigrationRepository`, `MigrationStore`,
`MigrationCall`, `migrationHandler`, `createGitHubMigration`, `AllOrNothing`,
`Admitted`, `Recordable`.
Key theorems: `play_recordRepositories`, `recordRepositories_ok_iff`,
`all_or_nothing_iff`.
-/
import Gitdot.Lib.Fates
import Gitdot.Server.Site

namespace Gitdot
namespace Migrate

open Lib Prog

/-! ### Rows -/

/-- `MigrationStatus`. -/
inductive MigrationStatus where
  | pending
  | running
  | completed
  | failed
  deriving DecidableEq

/-- `MigrationRepositoryStatus`. -/
inductive MigrationRepositoryStatus where
  | pending
  | running
  | completed
  | failed
  deriving DecidableEq

/-- `MigrationError`: the errors that other services have too, a text that its
column does not hold, and what the client of GitHub reports. -/
inductive MigrationError where
  | app (e : AppError)
  | valueTooLong
  | gitHub (message : String)
  deriving DecidableEq

/-- A row of `migration.migrations`. -/
structure Migration where
  id : Uuid
  number : ℤ
  authorId : Uuid
  origin : String
  originType : RepositoryOwnerType
  destination : String
  destinationType : RepositoryOwnerType
  status : MigrationStatus
  deriving DecidableEq

/-- A row of `migration.migration_repositories`. The column of the error holds the
text of it. -/
structure MigrationRepository where
  id : Uuid
  migrationId : Uuid
  originFullName : String
  originRepositoryId : ℤ
  originCreatedAt : Option ℤ
  destinationFullName : String
  destinationRepositoryId : Option Uuid
  visibility : RepositoryVisibility
  status : MigrationRepositoryStatus
  error : Option MigrationError
  deriving DecidableEq

/-- A row of `migration.github_installations`. -/
structure GitHubInstallation where
  installationId : ℤ
  ownerId : Uuid
  deriving DecidableEq

/-- What GitHub says of a repository. -/
structure GitHubRepo where
  fullName : Option String
  isPrivate : Option Bool
  createdAt : Option ℤ
  deriving DecidableEq

/-- The rows of the server and of its migrations, in the order they were inserted,
and what GitHub lists for an installation. -/
structure MigrationStore where
  site : Site.Storage
  installations : List GitHubInstallation
  migrations : List Migration
  repositories : List MigrationRepository
  listed : ℕ → List GitHubRepo

/-- The value a `VARCHAR(255)` column takes: spaces past the end are cut off, and
any other text that is longer is refused. -/
def varchar255 (text : String) : Option String :=
  if text.length ≤ 255 then some text
  else if (text.toList.drop 255).all (· = ' ') then some (String.ofList (text.toList.take 255))
  else none

/-- `as u64`. -/
def asU64 (n : ℤ) : ℕ := (n % 2 ^ 64).toNat

namespace MigrationStore

variable (s : MigrationStore)

/-- `get` of the installations. -/
def getInstallation (owner : Uuid) (installation : ℤ) : Option GitHubInstallation :=
  s.installations.find? fun i => decide (i.ownerId = owner ∧ i.installationId = installation)

/-- The greatest number among the migrations of an author. -/
def maxNumber (author : Uuid) : ℤ :=
  ((s.migrations.filter fun m => decide (m.authorId = author)).map Migration.number).foldr max 0

/-- `create`: the row of a migration. -/
def insertMigration (id author : Uuid) (origin : String) (originType : RepositoryOwnerType)
    (destination : String) (destinationType : RepositoryOwnerType) :
    Except MigrationError Migration × MigrationStore :=
  match varchar255 origin, varchar255 destination with
  | some origin, some destination =>
    if id ∈ s.migrations.map Migration.id then (.error (.app (.database .uniqueViolation)), s)
    else if (s.site.world.users.get? author).isNone then
      (.error (.app (.database .foreignKeyViolation)), s)
    else
      let migration : Migration :=
        ⟨id, s.maxNumber author + 1, author, origin, originType, destination, destinationType,
          .pending⟩
      (.ok migration, { s with migrations := s.migrations ++ [migration] })
  | _, _ => (.error .valueTooLong, s)

/-- `create_migration_repository`. -/
def insertRepository (id migration : Uuid) (originFullName : String) (originRepositoryId : ℤ)
    (originCreatedAt : Option ℤ) (destinationFullName : String) (visibility : RepositoryVisibility) :
    Except MigrationError MigrationRepository × MigrationStore :=
  match varchar255 originFullName, varchar255 destinationFullName with
  | some originFullName, some destinationFullName =>
    if id ∈ s.repositories.map MigrationRepository.id then
      (.error (.app (.database .uniqueViolation)), s)
    else if migration ∉ s.migrations.map Migration.id then
      (.error (.app (.database .foreignKeyViolation)), s)
    else
      let row : MigrationRepository :=
        ⟨id, migration, originFullName, originRepositoryId, originCreatedAt, destinationFullName,
          none, visibility, .pending, none⟩
      (.ok row, { s with repositories := s.repositories ++ [row] })
  | _, _ => (.error .valueTooLong, s)

end MigrationStore

/-! ### Calls -/

/-- The statements of a plan, and the request to GitHub. -/
inductive MigrationCall where
  | getInstallation (owner : Uuid) (installation : ℤ)
  | getOrganization (name : String)
  | listInstallationRepositories (installation : ℕ)
  | create (id author : Uuid) (origin : String) (originType : RepositoryOwnerType)
      (destination : String) (destinationType : RepositoryOwnerType)
  | createMigrationRepository (id migration : Uuid) (originFullName : String)
      (originRepositoryId : ℤ) (originCreatedAt : Option ℤ) (destinationFullName : String)
      (visibility : RepositoryVisibility)
  deriving DecidableEq

abbrev MigrationResp : MigrationCall → Type
  | .getInstallation .. => Option GitHubInstallation
  | .getOrganization _ => Option Organization
  | .listInstallationRepositories _ => List GitHubRepo
  | .create .. => Migration
  | .createMigrationRepository .. => MigrationRepository

/-- What the calls do. -/
def migrationExec : (c : MigrationCall) → MigrationStore →
    Except MigrationError (MigrationResp c) × MigrationStore
  | .getInstallation owner installation, s => (.ok (s.getInstallation owner installation), s)
  | .getOrganization name, s => (.ok (s.site.world.getOrganization name), s)
  | .listInstallationRepositories installation, s => (.ok (s.listed installation), s)
  | .create id author origin originType destination destinationType, s =>
    s.insertMigration id author origin originType destination destinationType
  | .createMigrationRepository id migration originFullName originRepositoryId originCreatedAt
      destinationFullName visibility, s =>
    s.insertRepository id migration originFullName originRepositoryId originCreatedAt
      destinationFullName visibility

def migrationHandler : Handler MigrationCall MigrationResp MigrationError MigrationStore where
  exec := migrationExec
  fault
    | .listInstallationRepositories _ => .gitHub "error sending request"
    | _ => .app (.database .connection)

abbrev MigrationProg (α : Type) : Type := Prog MigrationCall MigrationResp MigrationError MigrationError α

/-- A call under `?`. -/
def ask (c : MigrationCall) : MigrationProg (MigrationResp c) := perform id c

/-! ### The service -/

/-- A repository that a request names, with the id that its row draws. -/
structure GitHubMigrationRepository where
  name : String
  id : ℤ
  rowId : Uuid
  deriving DecidableEq

/-- `CreateGitHubMigrationRequest`, with the id that the migration draws. -/
structure CreateGitHubMigrationRequest where
  userId : Uuid
  installationId : ℤ
  origin : String
  originType : RepositoryOwnerType
  destination : String
  destinationType : RepositoryOwnerType
  repositories : List GitHubMigrationRepository
  migrationId : Uuid
  deriving DecidableEq

/-- `CreateGitHubMigrationResponse`. -/
structure CreateGitHubMigrationResponse where
  migration : Migration
  repositories : List MigrationRepository
  ownerId : Uuid
  ownerName : String
  ownerType : RepositoryOwnerType
  deriving DecidableEq

/-- The full name of a repository under its owner. -/
def fullName (owner name : String) : String := s!"{owner}/{name}"

/-- The repository of the listing that has a full name. -/
def findListed (listing : List GitHubRepo) (name : String) : Option GitHubRepo :=
  listing.find? fun r => decide (r.fullName = some name)

def visibilityOf (repo : GitHubRepo) : RepositoryVisibility :=
  if repo.isPrivate.getD false then .privateRepo else .publicRepo

variable (request : CreateGitHubMigrationRequest)

/-- The rows of the requested repositories, one after the other. -/
def recordRepositories (ownerId : Uuid) (listing : List GitHubRepo) (migration : Migration) :
    List MigrationRepository → List GitHubMigrationRepository →
      MigrationProg CreateGitHubMigrationResponse
  | recorded, [] =>
    pure ⟨migration, recorded, ownerId, request.destination, request.destinationType⟩
  | recorded, repo :: repos =>
    match findListed listing (fullName request.origin repo.name) with
    | none => .fail (.app (.input "repository" (fullName request.origin repo.name)))
    | some gitHubRepo =>
      ask (.createMigrationRepository repo.rowId migration.id (fullName request.origin repo.name)
          repo.id gitHubRepo.createdAt (fullName request.destination repo.name)
          (visibilityOf gitHubRepo)) >>= fun row =>
        recordRepositories ownerId listing migration (recorded ++ [row]) repos

/-- What follows once the owner is known. -/
def planMigration (ownerId : Uuid) : MigrationProg CreateGitHubMigrationResponse :=
  ask (.listInstallationRepositories (asU64 request.installationId)) >>= fun listing =>
    ask (.create request.migrationId request.userId request.origin request.originType
        request.destination request.destinationType) >>= fun migration =>
      recordRepositories request ownerId listing migration [] request.repositories

/-- `create_github_migration`. -/
def createGitHubMigration : MigrationProg CreateGitHubMigrationResponse :=
  ask (.getInstallation request.userId request.installationId) >>= fun installation =>
    match installation with
    | none => .fail (.app (.notFound "github installation" (toString request.installationId)))
    | some _ =>
      match request.destinationType with
      | .user => planMigration request request.userId
      | .organization =>
        ask (.getOrganization request.destination) >>= fun organization =>
          match organization with
          | none => .fail (.app (.notFound "owner" request.destination))
          | some organization => planMigration request organization.id

/-! ### What a plan leaves -/

/-- The row is the one of a requested repository. -/
structure RowOf (migration : Uuid) (listing : List GitHubRepo) (repo : GitHubMigrationRepository)
    (row : MigrationRepository) : Prop where
  id : row.id = repo.rowId
  migration : row.migrationId = migration
  origin : varchar255 (fullName request.origin repo.name) = some row.originFullName
  originId : row.originRepositoryId = repo.id
  destination : varchar255 (fullName request.destination repo.name) = some row.destinationFullName
  visibility : (findListed listing (fullName request.origin repo.name)).map visibilityOf =
    some row.visibility
  pending : row.status = .pending ∧ row.destinationRepositoryId = none ∧ row.error = none

/-- GitHub lists the repository, and its full names fit their columns. -/
def Recordable (listing : List GitHubRepo) (repo : GitHubMigrationRepository) : Prop :=
  (findListed listing (fullName request.origin repo.name)).isSome ∧
    (varchar255 (fullName request.origin repo.name)).isSome ∧
    (varchar255 (fullName request.destination repo.name)).isSome

/-- The ids that the rows draw are new. -/
def FreshRows (s : MigrationStore) (repos : List GitHubMigrationRepository) : Prop :=
  (repos.map GitHubMigrationRepository.rowId).Nodup ∧
    ∀ repo ∈ repos, repo.rowId ∉ s.repositories.map MigrationRepository.id

variable {request} {ownerId : Uuid} {listing : List GitHubRepo} {migration : Migration}

/-- The statement of one row: the row it inserts, or a refusal that leaves the
store as it is. -/
theorem exec_createMigrationRepository {s : MigrationStore} {repo : GitHubMigrationRepository}
    {gitHubRepo : GitHubRepo} (hm : migration.id ∈ s.migrations.map Migration.id)
    (hlisted : findListed listing (fullName request.origin repo.name) = some gitHubRepo) :
    (∃ row, RowOf request migration.id listing repo row ∧ Recordable request listing repo ∧
      repo.rowId ∉ s.repositories.map MigrationRepository.id ∧
      migrationExec (.createMigrationRepository repo.rowId migration.id
        (fullName request.origin repo.name) repo.id gitHubRepo.createdAt
        (fullName request.destination repo.name) (visibilityOf gitHubRepo)) s =
          (.ok row, { s with repositories := s.repositories ++ [row] })) ∨
    ∃ e, ¬ (Recordable request listing repo ∧
        repo.rowId ∉ s.repositories.map MigrationRepository.id) ∧
      migrationExec (.createMigrationRepository repo.rowId migration.id
        (fullName request.origin repo.name) repo.id gitHubRepo.createdAt
        (fullName request.destination repo.name) (visibilityOf gitHubRepo)) s = (.error e, s) := by
  simp only [migrationExec, MigrationStore.insertRepository]
  cases horigin : varchar255 (fullName request.origin repo.name) with
  | none =>
    refine .inr ⟨_, fun h => ?_, rfl⟩
    rw [Recordable, horigin] at h
    cases h.1.2.1
  | some origin =>
    cases hdest : varchar255 (fullName request.destination repo.name) with
    | none =>
      refine .inr ⟨_, fun h => ?_, rfl⟩
      rw [Recordable, hdest] at h
      cases h.1.2.2
    | some destination =>
      dsimp only
      by_cases hid : repo.rowId ∈ s.repositories.map MigrationRepository.id
      · rw [if_pos hid]
        exact .inr ⟨_, fun h => h.2 hid, rfl⟩
      · rw [if_neg hid, if_neg (not_not_intro hm)]
        refine .inl ⟨_, ⟨rfl, rfl, horigin, rfl, hdest, ?_, rfl, rfl, rfl⟩, ?_, hid, rfl⟩
        · rw [hlisted]
          rfl
        · rw [Recordable, hlisted, horigin, hdest]
          exact ⟨rfl, rfl, rfl⟩

variable (request ownerId listing)

/-- One turn of the loop: the row is inserted and the loop goes on, or it ends there,
with the row left behind if only its answer was lost. -/
theorem play_record_cons (repo : GitHubMigrationRepository) (repos : List GitHubMigrationRepository)
    (recorded : List MigrationRepository) (fates : List Fate) {s : MigrationStore}
    (hm : migration.id ∈ s.migrations.map Migration.id) :
    (∃ row, RowOf request migration.id listing repo row ∧
      (fates.headD .answered = .answered ∧ Recordable request listing repo ∧
        repo.rowId ∉ s.repositories.map MigrationRepository.id) ∧
      play migrationHandler (recordRepositories request ownerId listing migration recorded
          (repo :: repos)) fates s =
        play migrationHandler (recordRepositories request ownerId listing migration
          (recorded ++ [row]) repos) fates.tail { s with repositories := s.repositories ++ [row] }) ∨
    ∃ e rows, ¬ (fates.headD .answered = .answered ∧ Recordable request listing repo ∧
        repo.rowId ∉ s.repositories.map MigrationRepository.id) ∧
      play migrationHandler (recordRepositories request ownerId listing migration recorded
          (repo :: repos)) fates s =
        (.error e, { s with repositories := s.repositories ++ rows }) := by
  have hsame : s = { s with repositories := s.repositories ++ [] } := by rw [List.append_nil]
  cases hlisted : findListed listing (fullName request.origin repo.name) with
  | none =>
    refine .inr ⟨.app (.input "repository" (fullName request.origin repo.name)), [], fun h => ?_, ?_⟩
    · have hnone := h.2.1.1
      rw [hlisted] at hnone
      cases hnone
    · simp only [recordRepositories, hlisted, play_fail]
      rw [← hsame]
  | some gitHubRepo =>
    simp only [recordRepositories, hlisted]
    by_cases hf : fates.headD .answered = .answered
    · rcases exec_createMigrationRepository hm hlisted with ⟨row, hrow, hrec, hid, hx⟩ | ⟨e, hno, hx⟩
      · exact .inl ⟨row, hrow, ⟨hf, hrec, hid⟩, play_perform_bind_of_answered hf hx⟩
      · refine .inr ⟨e, [], fun h => hno h.2, ?_⟩
        rw [← hsame]
        refine play_perform_bind_error ?_
        rw [hf]
        exact hx
    · obtain ⟨e, hplay⟩ := play_perform_bind_of_unanswered migrationHandler
        (.createMigrationRepository repo.rowId migration.id (fullName request.origin repo.name)
          repo.id gitHubRepo.createdAt (fullName request.destination repo.name)
          (visibilityOf gitHubRepo)) id
        (fun row => recordRepositories request ownerId listing migration (recorded ++ [row]) repos) s hf
      have hstore : ∃ rows, (Handler.meet migrationHandler (.createMigrationRepository repo.rowId
          migration.id (fullName request.origin repo.name) repo.id gitHubRepo.createdAt
          (fullName request.destination repo.name) (visibilityOf gitHubRepo))
          (fates.headD .answered) s).2 = { s with repositories := s.repositories ++ rows } := by
        cases hfate : fates.headD .answered with
        | answered => exact absurd hfate hf
        | refused => exact ⟨[], hsame⟩
        | lost =>
          rcases exec_createMigrationRepository hm hlisted with ⟨row, -, -, -, hx⟩ | ⟨e, -, hx⟩
          · exact ⟨[row], congrArg Prod.snd hx⟩
          · exact ⟨[], (congrArg Prod.snd hx).trans hsame⟩
      obtain ⟨rows, hrows⟩ := hstore
      refine .inr ⟨e, rows, fun h => hf h.1, ?_⟩
      rw [← hrows]
      exact hplay

/-- **The loop.** It adds rows and nothing else, and if it gets to its end these are
one for each repository, in the order of the request. -/
theorem play_recordRepositories : ∀ (repos : List GitHubMigrationRepository)
    (recorded : List MigrationRepository) (fates : List Fate) (s : MigrationStore),
    migration.id ∈ s.migrations.map Migration.id →
    ∃ rows, (play migrationHandler (recordRepositories request ownerId listing migration recorded
        repos) fates s).2 = { s with repositories := s.repositories ++ rows } ∧
      ∀ response, (play migrationHandler (recordRepositories request ownerId listing migration
          recorded repos) fates s).1 = .ok response →
        response = ⟨migration, recorded ++ rows, ownerId, request.destination,
          request.destinationType⟩ ∧ List.Forall₂ (RowOf request migration.id listing) repos rows
  | [], recorded, fates, s, _ => by
    refine ⟨[], by simp [recordRepositories], fun response h => ?_⟩
    simp only [recordRepositories, pure_eq, play_ret, Except.ok.injEq] at h
    subst h
    exact ⟨by simp, .nil⟩
  | repo :: repos, recorded, fates, s, hm => by
    rcases play_record_cons request ownerId listing repo repos recorded fates hm with
      ⟨row, hrow, -, hplay⟩ | ⟨e, rows, -, hplay⟩
    · obtain ⟨rows, hstore, hok⟩ := play_recordRepositories repos (recorded ++ [row]) fates.tail
        { s with repositories := s.repositories ++ [row] } hm
      refine ⟨row :: rows, ?_, fun response h => ?_⟩
      · rw [hplay, hstore]
        simp
      · rw [hplay] at h
        obtain ⟨hresponse, hrows⟩ := hok response h
        exact ⟨by simpa using hresponse, .cons hrow hrows⟩
    · refine ⟨rows, by rw [hplay], fun response h => ?_⟩
      rw [hplay] at h
      cases h

theorem freshRows_cons {s : MigrationStore} {repo : GitHubMigrationRepository}
    {repos : List GitHubMigrationRepository} {row : MigrationRepository} (hid : row.id = repo.rowId) :
    FreshRows s (repo :: repos) ↔ repo.rowId ∉ s.repositories.map MigrationRepository.id ∧
      FreshRows { s with repositories := s.repositories ++ [row] } repos := by
  simp only [FreshRows, List.map_cons, List.nodup_cons, List.forall_mem_cons, List.map_append,
    List.map_nil, List.mem_append, List.mem_singleton, not_or, hid]
  constructor
  · rintro ⟨⟨hnot, hnodup⟩, hnew, hall⟩
    exact ⟨hnew, hnodup, fun r hr => ⟨hall r hr, fun he => hnot (he ▸ List.mem_map_of_mem hr)⟩⟩
  · rintro ⟨hnew, hnodup, hall⟩
    refine ⟨⟨fun hmem => ?_, hnodup⟩, hnew, fun r hr => (hall r hr).1⟩
    obtain ⟨r, hr, he⟩ := List.mem_map.mp hmem
    exact (hall r hr).2 he

/-- When the loop gets to its end. -/
theorem recordRepositories_ok_iff : ∀ (repos : List GitHubMigrationRepository)
    (recorded : List MigrationRepository) (fates : List Fate) (s : MigrationStore),
    migration.id ∈ s.migrations.map Migration.id →
    ((∃ response, (play migrationHandler (recordRepositories request ownerId listing migration
        recorded repos) fates s).1 = .ok response) ↔
      AllAnswered repos.length fates ∧ (∀ repo ∈ repos, Recordable request listing repo) ∧
        FreshRows s repos)
  | [], recorded, fates, s, _ => by
    simp [recordRepositories, allAnswered_zero, FreshRows]
  | repo :: repos, recorded, fates, s, hm => by
    rw [List.length_cons, allAnswered_succ, List.forall_mem_cons]
    rcases play_record_cons request ownerId listing repo repos recorded fates hm with
      ⟨row, hrow, ⟨hf, hrec, hid⟩, hplay⟩ | ⟨e, rows, hno, hplay⟩
    · have ih := recordRepositories_ok_iff repos (recorded ++ [row]) fates.tail
        { s with repositories := s.repositories ++ [row] } hm
      rw [hplay, ih, freshRows_cons hrow.id]
      tauto
    · rw [hplay]
      refine iff_of_false (fun ⟨_, h⟩ => nomatch h) ?_
      rintro ⟨⟨hf, -⟩, ⟨hrec, -⟩, hfresh⟩
      exact hno ⟨hf, hrec, hfresh.2 repo List.mem_cons_self⟩

/-! ### All or nothing -/

/-- Nothing is left of a request that fails, and of one that succeeds its migration
and one row for each repository that it named. -/
def AllOrNothing (s s' : MigrationStore) : Except MigrationError CreateGitHubMigrationResponse → Prop
  | .error _ => s'.migrations = s.migrations ∧ s'.repositories = s.repositories
  | .ok response => s'.migrations = s.migrations ++ [response.migration] ∧
    s'.repositories = s.repositories ++ response.repositories ∧
    List.Forall₂ (RowOf request response.migration.id (s.listed (asU64 request.installationId)))
      request.repositories response.repositories

/-- The calls before the migration is inserted. -/
def CreateGitHubMigrationRequest.callsBefore : ℕ :=
  match request.destinationType with
  | .user => 2
  | .organization => 3

/-- The request gets to the migration: every call before is answered, the
installation is the caller's, and the destination exists. -/
structure Admitted (s : MigrationStore) (fates : List Fate) : Prop where
  answered : AllAnswered request.callsBefore fates
  installation : (s.getInstallation request.userId request.installationId).isSome
  organization : request.destinationType = .organization →
    (s.site.world.getOrganization request.destination).isSome

/-- The database takes the row of the migration. -/
structure TakesMigration (s : MigrationStore) : Prop where
  origin : (varchar255 request.origin).isSome
  destination : (varchar255 request.destination).isSome
  fresh : request.migrationId ∉ s.migrations.map Migration.id
  author : (s.site.world.users.get? request.userId).isSome

/-- The row of the migration is inserted. -/
def MigrationInserted (s : MigrationStore) (fates : List Fate) : Prop :=
  Admitted request s fates ∧ TakesMigration request s ∧
    (fates.drop request.callsBefore).headD .answered ≠ .refused

/-- Nothing stops the request from there on: its insert and those of the rows are
answered, and each row can be recorded. -/
def Unhindered (s : MigrationStore) (fates : List Fate) : Prop :=
  AllAnswered (request.repositories.length + 1) (fates.drop request.callsBefore) ∧
    (∀ repo ∈ request.repositories,
      Recordable request (s.listed (asU64 request.installationId)) repo) ∧
    FreshRows s request.repositories

/-- The insert of the migration, and the loop. -/
def insertAndRecord (ownerId : Uuid) (listing : List GitHubRepo) :
    MigrationProg CreateGitHubMigrationResponse :=
  ask (.create request.migrationId request.userId request.origin request.originType
      request.destination request.destinationType) >>= fun migration =>
    recordRepositories request ownerId listing migration [] request.repositories

/-- The call in front of a program: without an answer nothing has happened yet. -/
theorem play_ask (c : MigrationCall) {k : MigrationResp c → MigrationProg CreateGitHubMigrationResponse}
    (fates : List Fate) {s : MigrationStore} {a : MigrationResp c}
    (hx : migrationExec c s = (.ok a, s)) :
    (fates.headD .answered = .answered ∧
      play migrationHandler (ask c >>= k) fates s = play migrationHandler (k a) fates.tail s) ∨
    ∃ e, fates.headD .answered ≠ .answered ∧
      play migrationHandler (ask c >>= k) fates s = (.error e, s) := by
  by_cases hf : fates.headD .answered = .answered
  · exact .inl ⟨hf, play_perform_bind_of_answered hf hx⟩
  · obtain ⟨e, hplay⟩ := play_perform_bind_of_unanswered migrationHandler c id k s hf
    refine .inr ⟨e, hf, ?_⟩
    have hstore : (migrationHandler.meet c (fates.headD .answered) s).2 = s :=
      Handler.meet_store (congrArg Prod.snd hx)
    rw [ask, hplay, hstore]

/-- A plan: what GitHub lists is asked for, and then the migration is inserted. -/
theorem play_planMigration (ownerId : Uuid) (fates : List Fate) (s : MigrationStore) :
    (fates.headD .answered = .answered ∧ play migrationHandler (planMigration request ownerId) fates s =
      play migrationHandler (insertAndRecord request ownerId
        (s.listed (asU64 request.installationId))) fates.tail s) ∨
    ∃ e, fates.headD .answered ≠ .answered ∧
      play migrationHandler (planMigration request ownerId) fates s = (.error e, s) :=
  play_ask _ fates rfl

theorem callsBefore_user (h : request.destinationType = .user) : request.callsBefore = 2 := by
  rw [CreateGitHubMigrationRequest.callsBefore, h]

theorem callsBefore_organization (h : request.destinationType = .organization) :
    request.callsBefore = 3 := by
  rw [CreateGitHubMigrationRequest.callsBefore, h]

variable {request} in
/-- The first two calls are made for either destination. -/
theorem Admitted.first_two {s : MigrationStore} {fates : List Fate} (h : Admitted request s fates) :
    fates.headD .answered = .answered ∧ fates.tail.headD .answered = .answered := by
  have hanswered := h.answered
  cases htype : request.destinationType with
  | user =>
    rw [callsBefore_user request htype, allAnswered_succ, allAnswered_succ] at hanswered
    exact ⟨hanswered.1, hanswered.2.1⟩
  | organization =>
    rw [callsBefore_organization request htype, allAnswered_succ, allAnswered_succ] at hanswered
    exact ⟨hanswered.1, hanswered.2.1⟩

/-- Where a program ends without an effect, or gets to the insert of the migration. -/
def AdmitsOr (fates : List Fate) (s : MigrationStore)
    (out : Except MigrationError CreateGitHubMigrationResponse × MigrationStore) : Prop :=
  (∃ e, ¬ Admitted request s fates ∧ out = (.error e, s)) ∨
    ∃ ownerId, Admitted request s fates ∧
      out = play migrationHandler (insertAndRecord request ownerId
        (s.listed (asU64 request.installationId))) (fates.drop request.callsBefore) s

section Admission

variable {request} {fates : List Fate} {s : MigrationStore}

/-- To the user: the listing is asked for next. -/
theorem play_toUser (htype : request.destinationType = .user)
    (hi : (s.getInstallation request.userId request.installationId).isSome)
    (h0 : fates.headD .answered = .answered) :
    AdmitsOr request fates s
      (play migrationHandler (planMigration request request.userId) fates.tail s) := by
  rcases play_planMigration request request.userId fates.tail s with ⟨h1, hplan⟩ | ⟨e, h1, hplan⟩
  · refine .inr ⟨request.userId, ⟨?_, hi, fun h => ?_⟩, ?_⟩
    · rw [callsBefore_user request htype]
      exact allAnswered_succ.mpr ⟨h0, allAnswered_succ.mpr ⟨h1, allAnswered_zero _⟩⟩
    · rw [htype] at h
      cases h
    · rw [hplan, callsBefore_user request htype]
      simp only [← List.drop_one, List.drop_drop]
  · exact .inl ⟨e, fun h => h1 h.first_two.2, hplan⟩

/-- To an organization: it is looked up, and then the listing is asked for. -/
theorem play_toOrganization (htype : request.destinationType = .organization)
    (hi : (s.getInstallation request.userId request.installationId).isSome)
    (h0 : fates.headD .answered = .answered) :
    AdmitsOr request fates s
      (play migrationHandler (ask (.getOrganization request.destination) >>= fun organization =>
        match organization with
        | none => .fail (.app (.notFound "owner" request.destination))
        | some organization => planMigration request organization.id) fates.tail s) := by
  rcases play_ask (.getOrganization request.destination) fates.tail (s := s) rfl with
    ⟨h1, hplay⟩ | ⟨e, h1, hplay⟩
  · rw [hplay]
    cases ho : s.site.world.getOrganization request.destination with
    | none =>
      refine .inl ⟨_, fun h => ?_, rfl⟩
      have hsome := h.organization htype
      rw [ho] at hsome
      cases hsome
    | some organization =>
      dsimp only
      rcases play_planMigration request organization.id fates.tail.tail s with
        ⟨h2, hplan⟩ | ⟨e, h2, hplan⟩
      · refine .inr ⟨organization.id, ⟨?_, hi, fun _ => by rw [ho]; rfl⟩, ?_⟩
        · rw [callsBefore_organization request htype]
          exact allAnswered_succ.mpr
            ⟨h0, allAnswered_succ.mpr ⟨h1, allAnswered_succ.mpr ⟨h2, allAnswered_zero _⟩⟩⟩
        · rw [hplan, callsBefore_organization request htype]
          simp only [← List.drop_one, List.drop_drop]
      · refine .inl ⟨e, fun h => h2 ?_, hplan⟩
        have hanswered := h.answered
        rw [callsBefore_organization request htype] at hanswered
        exact (allAnswered_succ.mp (allAnswered_succ.mp (allAnswered_succ.mp hanswered).2).2).1
  · exact .inl ⟨e, fun h => h1 h.first_two.2, hplay⟩

variable (request) (fates s)

/-- The calls before the migration: the request ends without an effect, or gets to
the insert. -/
theorem play_createGitHubMigration :
    AdmitsOr request fates s (play migrationHandler (createGitHubMigration request) fates s) := by
  unfold createGitHubMigration
  rcases play_ask (.getInstallation request.userId request.installationId) fates (s := s) rfl with
    ⟨h0, hplay⟩ | ⟨e, h0, hplay⟩
  · rw [hplay]
    cases hi : s.getInstallation request.userId request.installationId with
    | none =>
      refine .inl ⟨_, fun h => ?_, rfl⟩
      have hsome := h.installation
      rw [hi] at hsome
      cases hsome
    | some installation =>
      have hfound : (s.getInstallation request.userId request.installationId).isSome := by
        rw [hi]
        rfl
      dsimp only
      cases htype : request.destinationType with
      | user => exact play_toUser htype hfound h0
      | organization => exact play_toOrganization htype hfound h0
  · exact .inl ⟨e, fun h => h0 h.first_two.1, hplay⟩

end Admission

/-- The statement of the migration: its row, or a refusal that leaves the store as it
is. -/
theorem exec_create (s : MigrationStore) :
    (∃ migration : Migration, migration.id = request.migrationId ∧ TakesMigration request s ∧
      migrationExec (.create request.migrationId request.userId request.origin request.originType
        request.destination request.destinationType) s =
          (.ok migration, { s with migrations := s.migrations ++ [migration] })) ∨
    ∃ e, ¬ TakesMigration request s ∧
      migrationExec (.create request.migrationId request.userId request.origin request.originType
        request.destination request.destinationType) s = (.error e, s) := by
  simp only [migrationExec, MigrationStore.insertMigration]
  cases horigin : varchar255 request.origin with
  | none =>
    refine .inr ⟨_, fun h => ?_, rfl⟩
    have hsome := h.origin
    rw [horigin] at hsome
    cases hsome
  | some origin =>
    cases hdest : varchar255 request.destination with
    | none =>
      refine .inr ⟨_, fun h => ?_, rfl⟩
      have hsome := h.destination
      rw [hdest] at hsome
      cases hsome
    | some destination =>
      dsimp only
      by_cases hid : request.migrationId ∈ s.migrations.map Migration.id
      · rw [if_pos hid]
        exact .inr ⟨_, fun h => h.fresh hid, rfl⟩
      · rw [if_neg hid]
        cases hauthor : s.site.world.users.get? request.userId with
        | none =>
          refine .inr ⟨_, fun h => ?_, rfl⟩
          have hsome := h.author
          rw [hauthor] at hsome
          cases hsome
        | some author =>
          exact .inl ⟨_, rfl, ⟨by rw [horigin]; rfl, by rw [hdest]; rfl, hid, by rw [hauthor]; rfl⟩,
            rfl⟩

/-- The insert of the migration: nothing, the migration alone, or the migration and
what the loop makes of it. -/
theorem play_insertAndRecord (fates : List Fate) (s : MigrationStore) :
    (¬ (TakesMigration request s ∧ fates.headD .answered ≠ .refused) ∧ ∃ e,
      play migrationHandler (insertAndRecord request ownerId listing) fates s = (.error e, s)) ∨
    (TakesMigration request s ∧ fates.headD .answered ≠ .refused) ∧ ∃ migration : Migration,
      (fates.headD .answered ≠ .answered ∧ ∃ e,
        play migrationHandler (insertAndRecord request ownerId listing) fates s =
          (.error e, { s with migrations := s.migrations ++ [migration] })) ∨
      fates.headD .answered = .answered ∧
        play migrationHandler (insertAndRecord request ownerId listing) fates s =
          play migrationHandler (recordRepositories request ownerId listing migration []
            request.repositories) fates.tail { s with migrations := s.migrations ++ [migration] } := by
  rcases exec_create request s with ⟨migration, -, htakes, hx⟩ | ⟨e, hno, hx⟩
  · cases hf : fates.headD .answered with
    | answered =>
      refine .inr ⟨⟨htakes, nofun⟩, migration, .inr ⟨rfl, ?_⟩⟩
      exact play_perform_bind_of_answered hf hx
    | refused =>
      refine .inl ⟨fun h => h.2 rfl, .app (.database .connection), play_perform_bind_error ?_⟩
      rw [hf]
      rfl
    | lost =>
      refine .inr ⟨⟨htakes, nofun⟩, migration, .inl ⟨nofun, .app (.database .connection),
        play_perform_bind_error ?_⟩⟩
      rw [hf]
      exact congrArg (Prod.mk _) (congrArg Prod.snd hx)
  · refine .inl ⟨fun h => hno h.1, ?_⟩
    by_cases hf : fates.headD .answered = .answered
    · refine ⟨id e, play_perform_bind_error ?_⟩
      rw [hf]
      exact hx
    · obtain ⟨e', hplay⟩ := play_perform_bind_of_unanswered migrationHandler
        (.create request.migrationId request.userId request.origin request.originType
          request.destination request.destinationType) id
        (fun migration => recordRepositories request ownerId listing migration []
          request.repositories) s hf
      have hstore : (migrationHandler.meet (.create request.migrationId request.userId request.origin
          request.originType request.destination request.destinationType)
          (fates.headD .answered) s).2 = s := Handler.meet_store (congrArg Prod.snd hx)
      exact ⟨e', hplay.trans (by rw [hstore])⟩

theorem ne_append_singleton {α : Type} (l : List α) (a : α) : l ++ [a] ≠ l := by
  intro h
  have hlen := congrArg List.length h
  simp at hlen

/-- **All or nothing.** Exactly when its migration is inserted and something stops it
afterwards, a request leaves a part of its rows. -/
theorem all_or_nothing_iff (request : CreateGitHubMigrationRequest) (s : MigrationStore)
    (fates : List Fate) :
    AllOrNothing request s (play migrationHandler (createGitHubMigration request) fates s).2
        (play migrationHandler (createGitHubMigration request) fates s).1 ↔
      (MigrationInserted request s fates → Unhindered request s fates) := by
  rcases play_createGitHubMigration request fates s with
    ⟨e, hno, hplay⟩ | ⟨ownerId, hadmitted, hplay⟩
  · rw [hplay]
    exact iff_of_true ⟨rfl, rfl⟩ fun h => absurd h.1 hno
  · rcases play_insertAndRecord request ownerId (s.listed (asU64 request.installationId))
      (fates.drop request.callsBefore) s with
      ⟨hno, e, hinsert⟩ | ⟨htakes, migration, ⟨hf, e, hinsert⟩ | ⟨hf, hinsert⟩⟩
    · rw [hplay, hinsert]
      exact iff_of_true ⟨rfl, rfl⟩ fun h => absurd h.2 hno
    · -- the row is there, and its answer is lost
      rw [hplay, hinsert]
      refine iff_of_false (fun h => ne_append_singleton _ _ h.1) fun h => ?_
      exact hf (allAnswered_succ.mp (h ⟨hadmitted, htakes⟩).1).1
    · rw [hplay, hinsert]
      have hm : migration.id ∈ (s.migrations ++ [migration]).map Migration.id := by simp
      obtain ⟨rows, hstore, hok⟩ := play_recordRepositories request ownerId
        (s.listed (asU64 request.installationId)) request.repositories []
        (fates.drop request.callsBefore).tail { s with migrations := s.migrations ++ [migration] } hm
      have hends := recordRepositories_ok_iff request ownerId
        (s.listed (asU64 request.installationId)) request.repositories []
        (fates.drop request.callsBefore).tail { s with migrations := s.migrations ++ [migration] } hm
      have hunhindered : Unhindered request s fates ↔
          AllAnswered request.repositories.length (fates.drop request.callsBefore).tail ∧
            (∀ repo ∈ request.repositories,
              Recordable request (s.listed (asU64 request.installationId)) repo) ∧
              FreshRows s request.repositories := by
        rw [Unhindered, allAnswered_succ, and_iff_right hf]
      rw [hunhindered, hstore]
      refine Iff.trans ?_ (forall_prop_of_true ⟨hadmitted, htakes⟩).symm
      refine Iff.trans ?_ hends
      cases hresult : (play migrationHandler (recordRepositories request ownerId
          (s.listed (asU64 request.installationId)) migration [] request.repositories)
          (fates.drop request.callsBefore).tail
          { s with migrations := s.migrations ++ [migration] }).1 with
      | error e => exact iff_of_false (fun h => ne_append_singleton _ _ h.1) fun ⟨_, h⟩ => nomatch h
      | ok response =>
        obtain ⟨hresponse, hrows⟩ := hok response hresult
        refine iff_of_true ?_ ⟨response, rfl⟩
        rw [hresponse]
        exact ⟨rfl, rfl, hrows⟩

/-- A user with an installation, for which GitHub lists the repositories of two names. -/
def octocatStore : MigrationStore where
  site := ⟨⟨⟨[⟨0, "alice"⟩], by decide⟩, .empty, [], .empty, .empty, [], fun _ _ => none⟩, fun _ => none⟩
  installations := [⟨7, 0⟩]
  migrations := []
  repositories := []
  listed _ := [⟨some "octocat/spoon", some true, none⟩, ⟨some "octocat/Knife", none, none⟩]

/-- The request for both, the second under the name that parsing has made of it. -/
def octocatRequest : CreateGitHubMigrationRequest :=
  ⟨0, 7, "octocat", .user, "alice", .user, [⟨"spoon", 1, 11⟩, ⟨"knife", 2, 12⟩], 10⟩

/-- No call fails, and what is left is a migration that names one of its two
repositories. -/
theorem not_all_or_nothing :
    ¬ AllOrNothing octocatRequest octocatStore
      (play migrationHandler (createGitHubMigration octocatRequest) [] octocatStore).2
      (play migrationHandler (createGitHubMigration octocatRequest) [] octocatStore).1 := by
  have hresult : (play migrationHandler (createGitHubMigration octocatRequest) [] octocatStore).1 =
      .error (.app (.input "repository" "octocat/knife")) := by decide +kernel
  have hleft : (play migrationHandler (createGitHubMigration octocatRequest) []
      octocatStore).2.repositories.map MigrationRepository.originFullName = ["octocat/spoon"] := by
    decide +kernel
  rw [hresult]
  intro h
  rw [h.2] at hleft
  cases hleft

end Migrate
end Gitdot
