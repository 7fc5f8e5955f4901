/-
# Calls on the rows and the directories

The services that give names away and that make and remove repositories write
in two places: the rows of `core` and the directories on disk, one for each
owner and in it one for each of the owner's repositories. Each of their
database statements and file operations is a call here, so that the calls of
several requests interleave, and each may fail before or after it has had its
effect.

A directory of an owner is made with its first repository and stays when it
is empty. `renameOwner` moves it as `fs::rename` does: a directory that is
missing is no error, and one that is not empty is not replaced. A git directory
has the repository that it was made for next to its name, which the file
system does not know.

Key definitions: `Directories`, `Storage`, `SiteCall`, `siteHandler`, `signUp`,
`updateCurrentUser`, `createOrganization`, `createRepository`,
`deleteRepository`, `migrateSingleRepository`, `SiteOp`, `siteProgram`,
`siteNext`.
-/
import Gitdot.Lib.Pool
import Gitdot.Server.Run

namespace Gitdot
namespace Site

open Lib Prog

/-! ### Directories -/

/-- A git directory `<name>.git`, and the repository it was made for. -/
structure GitDirectory where
  name : String
  madeFor : Uuid
  deriving DecidableEq

/-- The directory of each owner, with the git directories in it. -/
abbrev Directories := String → Option (List GitDirectory)

namespace Directories

variable (dirs : Directories)

/-- The git directories of an owner. -/
def of (owner : String) : List GitDirectory := (dirs owner).getD []

/-- The git directory at a path. -/
def find (owner repo : String) : Option GitDirectory :=
  (dirs.of owner).find? fun d => decide (d.name = repo)

/-- The directories with those of one owner replaced. -/
def set (owner : String) (of : Option (List GitDirectory)) : Directories :=
  fun o => if o = owner then of else dirs o

/-- `create_dir_all` and `init_bare`: a directory that exists stays as it is. -/
def createRepo (owner repo : String) (madeFor : Uuid) : Directories :=
  dirs.set owner (some (if (dirs.find owner repo).isSome then dirs.of owner
    else ⟨repo, madeFor⟩ :: dirs.of owner))

/-- `remove_dir_all`. -/
def deleteRepo (owner repo : String) : Directories :=
  dirs.set owner ((dirs owner).map fun of => of.filter fun d => decide (d.name ≠ repo))

/-- `rename_owner`, `none` if it is refused. -/
def renameOwner (old new : String) : Option Directories :=
  if (dirs old).isNone then some dirs
  else if (dirs.of new).isEmpty then some ((dirs.set new (dirs old)).set old none)
  else none

end Directories

/-! ### Calls -/

/-- The rows of the server, and its directories. The refs of the git
directories, `disk`, play no part. -/
structure Storage where
  world : World
  dirs : Directories

/-- `GitHookType`. -/
inductive GitHookType where
  | preReceive
  | postReceive
  | procReceive
  deriving DecidableEq

/-- The statements and the file operations. -/
inductive SiteCall where
  | insertUser (id : Uuid) (bytes : Fin (2 ^ 32))
  | isNameTaken (name : String)
  | getUserById (id : Uuid)
  | updateUser (id : Uuid) (name : Option String)
  | renameOwner (old new : String)
  | getOrganization (name : String)
  | getUser (name : String)
  | insertOrganization (id owner : Uuid) (name : String)
  | verifyAuthorizedForRepositoryCreation (request : RepositoryCreationAuthorizationRequest)
  | repoExists (owner repo : String)
  | createRepo (owner repo : String) (madeFor : Uuid)
  | emptyHooks (owner repo : String)
  | installHook (owner repo : String) (hook : GitHookType)
  | insertRepository (id : Uuid) (name : String) (ownerId : Uuid)
      (ownerType : RepositoryOwnerType) (visibility : RepositoryVisibility) (readonly : Bool)
  | createInitialCommit (owner repo : String) (userId : Uuid)
  | verifyAuthorizedForRepository (request : RepositoryAuthorizationRequest)
  | getRepository (owner repo : String)
  | deleteRow (id : Uuid)
  | deleteRepo (owner repo : String)
  | mirrorRepo (owner repo : String) (madeFor : Uuid)
  deriving DecidableEq

/-- What the calls answer. -/
abbrev SiteResp : SiteCall → Type
  | .insertUser .. => User
  | .isNameTaken _ => Bool
  | .getUserById _ => Option User
  | .updateUser .. => Unit
  | .renameOwner .. => Unit
  | .getOrganization _ => Option Organization
  | .getUser _ => Option User
  | .insertOrganization .. => Organization
  | .verifyAuthorizedForRepositoryCreation _ => Except AuthorizationError Unit
  | .repoExists .. => Bool
  | .createRepo .. => Unit
  | .emptyHooks .. => Unit
  | .installHook .. => Unit
  | .insertRepository .. => Repository
  | .createInitialCommit .. => Unit
  | .verifyAuthorizedForRepository _ => Except AuthorizationError Unit
  | .getRepository .. => Option Repository
  | .deleteRow _ => Unit
  | .deleteRepo .. => Unit
  | .mirrorRepo .. => Unit

/-- An operation on a path where there is no directory. -/
def noSuchDirectory : AppError := .git (.git2Error "No such file or directory")

namespace Storage

variable (s : Storage)

/-- `update`, of the name: refused if there is no row, and by the unique index
if another user has the name. -/
def updateUser (id : Uuid) (name : Option String) : Except AppError Unit × Storage :=
  match s.world.users.get? id with
  | none => (.error (.database .rowNotFound), s)
  | some user =>
    match name with
    | none => (.ok (), s)
    | some new =>
      if s.world.users.rows.any fun u => decide (u.name = new ∧ u.id ≠ user.id) then
        (.error (.database .uniqueViolation), s)
      else (.ok (), { s with world := { s.world with
        users := s.world.users.modify id (fun u => { u with name := new }) (User.key_named new) } })

/-- `create`: the organization and the membership of its first admin. -/
def insertOrganization (id owner : Uuid) (name : String) : Except AppError Organization × Storage :=
  if (s.world.getOrganization name).isSome then (.error (.database .uniqueViolation), s)
  else if (s.world.users.get? owner).isNone then (.error (.database .foreignKeyViolation), s)
  else
    match s.world.organizations.insert? ⟨id, name⟩ with
    | none => (.error (.database .uniqueViolation), s)
    | some organizations => (.ok ⟨id, name⟩, { s with world := { s.world with
        organizations := organizations
        members := ⟨owner, id, .admin⟩ :: s.world.members } })

/-- `create` of the repository layer. -/
def insertRepository (id : Uuid) (name : String) (ownerId : Uuid) (ownerType : RepositoryOwnerType)
    (visibility : RepositoryVisibility) (readonly : Bool) : Except AppError Repository × Storage :=
  match s.world.insertRepository id name ownerId ownerType visibility readonly with
  | none => (.error (.database .uniqueViolation), s)
  | some repositories => (.ok ⟨id, name, ownerId, ownerType, visibility, readonly, .empty⟩,
      { s with world := { s.world with repositories := repositories } })

/-- A write in a git directory, which does not change where it is. -/
def inDirectory (owner repo : String) : Except AppError Unit × Storage :=
  if (s.dirs.find owner repo).isSome then (.ok (), s) else (.error noSuchDirectory, s)

end Storage

/-- What the calls do. -/
def siteExec : (c : SiteCall) → Storage → Except AppError (SiteResp c) × Storage
  | .insertUser id bytes, s =>
    ((s.world.createUser id bytes).1, { s with world := (s.world.createUser id bytes).2 })
  | .isNameTaken name, s => (.ok (s.world.isNameTaken name), s)
  | .getUserById id, s => (.ok (s.world.users.get? id), s)
  | .updateUser id name, s => s.updateUser id name
  | .renameOwner old new, s =>
    match s.dirs.renameOwner old new with
    | none => (.error (.git (.git2Error "Directory not empty")), s)
    | some dirs => (.ok (), { s with dirs := dirs })
  | .getOrganization name, s => (.ok (s.world.getOrganization name), s)
  | .getUser name, s => (.ok (s.world.getUser name), s)
  | .insertOrganization id owner name, s => s.insertOrganization id owner name
  | .verifyAuthorizedForRepositoryCreation request, s =>
    (.ok (s.world.verifyAuthorizedForRepositoryCreation request), s)
  | .repoExists owner repo, s => (.ok (s.dirs.find owner repo).isSome, s)
  | .createRepo owner repo madeFor, s => (.ok (), { s with dirs := s.dirs.createRepo owner repo madeFor })
  | .emptyHooks owner repo, s => s.inDirectory owner repo
  | .installHook owner repo _, s => s.inDirectory owner repo
  | .insertRepository id name ownerId ownerType visibility readonly, s =>
    s.insertRepository id name ownerId ownerType visibility readonly
  | .createInitialCommit owner repo userId, s =>
    match s.world.users.get? userId with
    | none => (.error (.notFound "user" (Uuid.text userId)), s)
    | some _ => s.inDirectory owner repo
  | .verifyAuthorizedForRepository request, s =>
    (.ok (s.world.verifyAuthorizedForRepository request), s)
  | .getRepository owner repo, s => (.ok (s.world.getRepository owner repo), s)
  | .deleteRow id, s =>
    (.ok (), { s with world := { s.world with repositories := s.world.repositories.erase id } })
  | .deleteRepo owner repo, s =>
    if (s.dirs.find owner repo).isSome then
      (.ok (), { s with dirs := s.dirs.deleteRepo owner repo })
    else (.error noSuchDirectory, s)
  | .mirrorRepo owner repo madeFor, s =>
    if (s.dirs.find owner repo).isSome then (.error (.git (.git2Error "git clone failed: ")), s)
    else (.ok (), { s with dirs := s.dirs.createRepo owner repo madeFor })

/-- The call is a file operation. -/
def SiteCall.onDisk : SiteCall → Bool
  | .renameOwner .. | .repoExists .. | .createRepo .. | .emptyHooks .. | .installHook ..
  | .createInitialCommit .. | .deleteRepo .. | .mirrorRepo .. => true
  | _ => false

def siteHandler : Handler SiteCall SiteResp AppError Storage where
  exec := siteExec
  fault c := if c.onDisk then .git (.git2Error "I/O error") else .database .connection

/-! ### The services -/

abbrev SiteProg (α : Type) : Type := Prog SiteCall SiteResp AppError AppError α

/-- What a request has seen. -/
abbrev SiteEvent : Type := Prog.Event SiteCall SiteResp AppError

/-- A call under `?`. -/
def ask (c : SiteCall) : SiteProg (SiteResp c) := perform id c

/-- Which names the server takes: `validate_name` and `is_offensive_name`. -/
structure Names where
  validName : String → Bool
  offensive : String → Bool

variable (names : Names)

/-- What one attempt at a handle draws. -/
structure HandleDraw where
  id : Uuid
  bytes : Fin (2 ^ 32)
  deriving DecidableEq

/-- `create`: the attempts at a handle no user has. -/
def createUser : HandleDraw → List HandleDraw → SiteProg Unit
  | draw, [] => ask (.insertUser draw.id draw.bytes) >>= fun _ => pure ()
  | draw, next :: draws => .call (.insertUser draw.id draw.bytes) fun
    | .ok _ => pure ()
    | .error (.database .uniqueViolation) => createUser next draws
    | .error e => .fail e

/-- The rename that a request asks for: from which name to which. -/
def requestedRename (caller : Uuid) : Option String → SiteProg (Option (String × String))
  | none => pure none
  | some new =>
    if names.validName new = false then .fail (.conflict "user name" new)
    else ask (.isNameTaken new) >>= fun taken =>
      if taken then .fail (.conflict "user name" s!"{new} is already taken")
      else ask (.getUserById caller) >>= fun found =>
        match found with
        | none => .fail (.notFound "user" (Uuid.text caller))
        | some user => pure (if user.name = new then none else some (user.name, new))

/-- The error of a rename whose update has failed with `e`. -/
def renameError (new : String) (e : AppError) : AppError :=
  if e = .database .uniqueViolation then .conflict "user name" s!"{new} is already taken" else e

/-- The directory is moved before the row is written, and back if that fails. -/
def renameUser (caller : Uuid) (old new : String) : SiteProg Unit :=
  ask (.renameOwner old new) >>= fun _ =>
    .call (.updateUser caller (some new)) fun
      | .ok _ => pure ()
      | .error e => .call (.renameOwner new old) fun _ => .fail (renameError new e)

/-- `update_current_user`. -/
def updateCurrentUser (caller : Uuid) (name : Option String) : SiteProg Unit :=
  requestedRename names caller name >>= fun rename =>
    match rename with
    | none => ask (.updateUser caller none) >>= fun _ => pure ()
    | some (old, new) => renameUser caller old new

/-- `create_organization`. -/
def createOrganization (id caller : Uuid) (orgName : String) : SiteProg Unit :=
  if names.validName orgName = false then .fail (.conflict "organization name" orgName)
  else ask (.getOrganization orgName) >>= fun organization =>
    if organization.isSome then .fail (.conflict "organization name" orgName)
    else ask (.getUser orgName) >>= fun user =>
      if user.isSome then .fail (.conflict "organization name" orgName)
      else ask (.insertOrganization id caller orgName) >>= fun _ => pure ()

/-- The hooks of a repository, in the order they are installed. -/
def installHooks (owner repo : String) : SiteProg Unit :=
  ask (.installHook owner repo .preReceive) >>= fun _ =>
    ask (.installHook owner repo .postReceive) >>= fun _ =>
      ask (.installHook owner repo .procReceive)

/-- What a request to create a repository asks for. `initialFiles` is whether
there are any. -/
structure CreateRepositoryRequest where
  id : Uuid
  userId : Uuid
  owner : String
  name : String
  ownerType : RepositoryOwnerType
  visibility : RepositoryVisibility
  initialFiles : Bool
  deriving DecidableEq

/-- The row of the owner. -/
def ownerOf (request : CreateRepositoryRequest) : SiteProg Uuid :=
  match request.ownerType with
  | .user => pure request.userId
  | .organization =>
    ask (.getOrganization request.owner) >>= fun organization =>
      match organization with
      | none => .fail (.notFound "owner" request.owner)
      | some organization => pure organization.id

/-- The first commit. If it fails, the row and the directory are removed. -/
def initialCommit (request : CreateRepositoryRequest) : SiteProg Unit :=
  if request.initialFiles then
    .call (.createInitialCommit request.owner request.name request.userId) fun
      | .ok _ => pure ()
      | .error e =>
        .call (.deleteRow request.id) fun _ =>
          .call (.deleteRepo request.owner request.name) fun _ => .fail e
  else pure ()

/-- The directory, its hooks, and the row. -/
def makeRepository (request : CreateRepositoryRequest) (ownerId : Uuid) : SiteProg Unit :=
  ask (.createRepo request.owner request.name request.id) >>= fun _ =>
    installHooks request.owner request.name >>= fun _ =>
      .call (.insertRepository request.id request.name ownerId request.ownerType
          request.visibility false) fun
        | .ok _ => initialCommit request
        | .error e => .call (.deleteRepo request.owner request.name) fun _ => .fail e

/-- `create_repository`, the handler and the service. -/
def createRepository (request : CreateRepositoryRequest) : SiteProg Unit :=
  ask (.verifyAuthorizedForRepositoryCreation ⟨request.userId, request.owner, request.ownerType⟩) >>=
    fun authorized =>
      match authorized with
      | .error e => .fail (.authorization e)
      | .ok () =>
        if names.offensive request.name then
          .fail (.conflict "repository" s!"{request.name} is not allowed")
        else .call (.repoExists request.owner request.name) fun answer =>
          -- a directory that cannot be looked up counts as missing
          if answer = .ok true then .fail (.conflict "repository" request.name)
          else ownerOf request >>= makeRepository request

/-- `delete_repository`, the handler and the service. -/
def deleteRepository (caller : Uuid) (owner repo : String) : SiteProg Unit :=
  ask (.verifyAuthorizedForRepository ⟨some caller, owner, repo, .admin⟩) >>= fun authorized =>
    match authorized with
    | .error e => .fail (.authorization e)
    | .ok () =>
      ask (.getRepository owner repo) >>= fun found =>
        match found with
        | none => .fail (.notFound "repository" s!"{owner}/{repo}")
        | some repository =>
          ask (.deleteRepo owner repo) >>= fun _ => ask (.deleteRow repository.id)

/-- What a repository is migrated as. -/
structure MigrationRequest where
  id : Uuid
  ownerName : String
  ownerId : Uuid
  ownerType : RepositoryOwnerType
  repoName : String
  visibility : RepositoryVisibility
  readonly : Bool
  deriving DecidableEq

/-- `setup_mirrored_repository`. The reads of the mirror after the row is there
cannot fail it. -/
def setupMirroredRepository (request : MigrationRequest) : SiteProg Unit :=
  ask (.emptyHooks request.ownerName request.repoName) >>= fun _ =>
    installHooks request.ownerName request.repoName >>= fun _ =>
      ask (.insertRepository request.id request.repoName request.ownerId request.ownerType
        request.visibility request.readonly) >>= fun _ => pure ()

/-- The program, with the directory removed if it fails. -/
def orDeleteRepo (owner repo : String) : SiteProg Unit → SiteProg Unit
  | .ret a => .ret a
  | .fail e => .call (.deleteRepo owner repo) fun _ => .fail e
  | .call c k => .call c fun r => orDeleteRepo owner repo (k r)

/-- `migrate_single_repository`. -/
def migrateSingleRepository (request : MigrationRequest) : SiteProg Unit :=
  ask (.getRepository request.ownerName request.repoName) >>= fun found =>
    if found.isSome then
      .fail (.conflict "repository" s!"{request.ownerName}/{request.repoName}")
    else
      ask (.mirrorRepo request.ownerName request.repoName request.id) >>= fun _ =>
        orDeleteRepo request.ownerName request.repoName (setupMirroredRepository request)

/-! ### Requests -/

/-- What the server is asked to do, with what it draws. -/
inductive SiteOp where
  | signUp (first second third : HandleDraw)
  | updateCurrentUser (caller : Uuid) (name : Option String)
  | createOrganization (id caller : Uuid) (orgName : String)
  | createRepository (request : CreateRepositoryRequest)
  | deleteRepository (caller : Uuid) (owner repo : String)
  | migrateSingleRepository (request : MigrationRequest)
  deriving DecidableEq

/-- What each does. A sign-up tries three handles. -/
def siteProgram : SiteOp → SiteProg Unit
  | .signUp first second third => createUser first [second, third]
  | .updateCurrentUser caller name => updateCurrentUser names caller name
  | .createOrganization id caller orgName => createOrganization names id caller orgName
  | .createRepository request => createRepository names request
  | .deleteRepository caller owner repo => deleteRepository caller owner repo
  | .migrateSingleRepository request => migrateSingleRepository request

abbrev SitePool : Type := Pool SiteOp SiteCall SiteResp AppError AppError Unit Storage

abbrev SiteMove : Type := Move SiteOp Empty

/-- Nothing but the requests changes the site. -/
def undisturbed : Empty → Storage → Storage := fun e _ => nomatch e

def siteNext : SiteMove → SitePool → SitePool :=
  Pool.next siteHandler (siteProgram names) undisturbed

end Site
end Gitdot
