/-
# Runs of the server

The handlers that create accounts, organizations and repositories, change
memberships and the readonly flag, take pushes and act on reviews, as
functions of the store, and the runs in which they are called in any order by
any callers. A handler that ends with an error leaves behind what its calls
had done before.

Next to the requests a run has the event `disk`: the git directories become
whatever they become. It stands for everything that only writes there (pushes
of other refs, mirrored fetches, first commits) and for handlers cut off
between the disk and the database.

Key definitions: `World.runAt`, `World.mergeReviewDiffHandler`,
`World.gitReceivePack`, `Request`, `serve`, `emptyWorld`.
-/
import Gitdot.Review.Run
import Gitdot.Server.Comments

namespace Gitdot

open Lib Prog

/-! ### The review service on a store -/

namespace World

/-- What the review service sees of the store when its path leads to this
repository. -/
def view (w : World) (owner repo : String) (repository : Option Repository) : RepoState where
  repository := repository.map Repository.id
  reviews := repository.elim .empty Repository.reviews
  refs := (w.disk owner repo).getD fun _ => none

/-- The rows of a repository's reviews replaced. -/
def setReviews (w : World) (id : Uuid) (reviews : Table Review) : Table Repository :=
  w.repositories.modify id (fun r => { r with reviews := reviews }) fun _ => rfl

/-- The store once the review service has left the repository in this state. -/
def putView (w : World) (owner repo : String) (repository : Option Repository) (s : RepoState) :
    World :=
  { w with
    repositories := repository.elim w.repositories fun r => w.setReviews r.id s.reviews
    disk := fun o r =>
      if o = owner ∧ r = repo then (w.disk owner repo).map fun _ => s.refs else w.disk o r }

/-- A method of the review service run on the repository its path leads to. -/
def runAt (w : World) (g : Git) (draw : Uuid) (plan : List Bool) (owner repo : String)
    (repository : Option Repository) (p : ReviewProg Review) : Except AppError Review × World :=
  let out := run (handler g draw) p plan (w.view owner repo repository)
  (out.1.mapError .review, w.putView owner repo repository out.2)

/-- A method behind `verify_authorized_for_review`, what the handlers on a
review by its author do. -/
def authored (w : World) (g : Git) (plan : List Bool) (caller : Uuid) (owner repo : String)
    (number : ℤ) (p : ReviewProg Review) : Except AppError Review × World :=
  match w.verifyAuthorizedForReview ⟨caller, owner, repo, number⟩ with
  | .error e => (.error (.authorization e), w)
  | .ok () => w.runAt g 0 plan owner repo (w.repositoryWith owner repo number) p

def publishReviewHandler (w : World) (g : Git) (plan : List Bool) (caller : Uuid)
    (request : PublishReviewRequest) : Except AppError Review × World :=
  w.authored g plan caller request.owner request.repo request.number (publishReview request)

def publishReviewDiffHandler (w : World) (g : Git) (plan : List Bool) (caller : Uuid)
    (request : PublishReviewDiffRequest) : Except AppError Review × World :=
  w.authored g plan caller request.owner request.repo request.number (publishReviewDiff request)

def updateReviewHandler (w : World) (g : Git) (plan : List Bool) (caller : Uuid)
    (request : UpdateReviewRequest) : Except AppError Review × World :=
  w.authored g plan caller request.owner request.repo request.number (updateReview request)

def updateReviewDiffHandler (w : World) (g : Git) (plan : List Bool) (caller : Uuid)
    (request : UpdateReviewDiffRequest) : Except AppError Review × World :=
  w.authored g plan caller request.owner request.repo request.number (updateReviewDiff request)

/-- The merge handler: once the service has merged, it records the merged
commits in a table of their own (`createCommits`), which may fail. -/
def mergeReviewDiffHandler (w : World) (g : Git) (plan : List Bool)
    (createCommits : Review → Except AppError Unit) (caller : Uuid)
    (request : MergeReviewDiffRequest) : Except AppError Review × World :=
  let out := w.authored g plan caller request.owner request.repo request.number
    (mergeReviewDiff request)
  (out.1.bind fun review => (createCommits review).map fun _ => review, out.2)

/-! ### Pushes -/

/-- `process_review`, which the hook of a push calls. -/
def processReview (w : World) (g : Git) (draw : Uuid) (plan : List Bool)
    (request : ProcessReviewRequest) : Except AppError Review × World :=
  match request.reviewNumber with
  | none =>
    w.runAt g draw plan request.owner request.repo (w.getRepository request.owner request.repo)
      (createReview request)
  | some number =>
    w.authored g plan request.pusherId request.owner request.repo (asI32 number)
      (processReviewUpdate request)

/-- A push for review through `git_receive_pack`, the pusher being the caller. -/
def gitReceivePack (w : World) (g : Git) (draw : Uuid) (plan : List Bool)
    (request : ProcessReviewRequest) : Except AppError Review × World :=
  match w.verifyAuthorizedForRepository
      ⟨some request.pusherId, request.owner, request.repo, .write⟩ with
  | .error e => (.error (.authorization e), w)
  | .ok () => w.processReview g draw plan request

/-! ### Reviewers -/

/-- The reviewers of a review rewritten. -/
def setReviewers (w : World) (owner repo : String) (number : ℤ) (id : Uuid)
    (f : List Uuid → List Uuid) : World :=
  { w with
    repositories := (w.repositoryWith owner repo number).elim w.repositories fun r =>
      w.setReviews r.id
        (r.reviews.modify id (fun v => { v with reviewers := f v.reviewers }) fun _ => rfl) }

def addReviewReviewerHandler (w : World) (caller : Uuid) (owner repo : String) (number : ℤ)
    (userName : String) : Except AppError Unit × World :=
  match w.verifyAuthorizedForReview ⟨caller, owner, repo, number⟩ with
  | .error e => (.error (.authorization e), w)
  | .ok () =>
    match w.getUser userName with
    | none => (.error (.review (.notFound "user" userName)), w)
    | some user =>
      match w.getReviewByNumber owner repo number with
      | none => (.error (.review (.notFound "review" s!"{owner}/{repo}/review/{number}")), w)
      | some review =>
        if user.id = review.authorId then
          (.error (.review (.cannotReviewOwnReview userName)), w)
        else if user.id ∈ review.reviewers then
          (.error (.review (.conflict "reviewer" userName)), w)
        else (.ok (), w.setReviewers owner repo number review.id (· ++ [user.id]))

def removeReviewReviewerHandler (w : World) (caller : Uuid) (owner repo : String) (number : ℤ)
    (reviewerName : String) : Except AppError Unit × World :=
  match w.verifyAuthorizedForReview ⟨caller, owner, repo, number⟩ with
  | .error e => (.error (.authorization e), w)
  | .ok () =>
    match w.getUser reviewerName with
    | none => (.error (.review (.notFound "user" reviewerName)), w)
    | some user =>
      match w.getReviewByNumber owner repo number with
      | none => (.error (.review (.notFound "review" s!"{owner}/{repo}/review/{number}")), w)
      | some review =>
        if user.id ∈ review.reviewers then
          (.ok (), w.setReviewers owner repo number review.id fun ids =>
            ids.filter fun id => decide (id ≠ user.id))
        else (.error (.review (.notFound "reviewer" reviewerName)), w)

/-! ### Accounts and organizations -/

instance handle.instNeZero : NeZero (2 ^ 32 : ℕ) := ⟨by decide⟩

/-- The handle a sign-up draws: `user-` and four random bytes in hexadecimal. -/
def handle (bytes : Fin (2 ^ 32)) : String := "user-" ++ String.ofList (hexDigits 8 bytes.val)

/-- One attempt of `create`: the unique index on the users' names refuses a
handle that a user has. -/
def createUser (w : World) (id : Uuid) (bytes : Fin (2 ^ 32)) : Except AppError User × World :=
  if (w.getUser (handle bytes)).isSome then (.error (.database .uniqueViolation), w)
  else
    match w.users.insert? ⟨id, handle bytes⟩ with
    | none => (.error (.database .uniqueViolation), w)
    | some users => (.ok ⟨id, handle bytes⟩, { w with users := users })

/-- The directories after `rename_owner`. -/
def renameOwner (w : World) (old new : String) : String → String → Option Refs := fun owner repo =>
  if owner = new then (w.disk old repo).or (w.disk new repo)
  else if owner = old then none
  else w.disk owner repo

/-- `update_current_user` with a new name. `validName` is `validate_name`. -/
def updateCurrentUser (w : World) (validName : String → Bool) (caller : Uuid) (name : String) :
    Except AppError Unit × World :=
  if ¬ validName name then (.error (.conflict "user name" name), w)
  else if w.isNameTaken name then
    (.error (.conflict "user name" s!"{name} is already taken"), w)
  else
    match w.users.get? caller with
    | none => (.error (.notFound "user" (Uuid.text caller)), w)
    | some user => (.ok (), { w with
        users := w.users.modify caller (fun u => { u with name := name }) (User.key_named name)
        disk := w.renameOwner user.name name })

/-- `create_organization`, with its creator its admin. -/
def createOrganization (w : World) (validName : String → Bool) (id caller : Uuid)
    (orgName : String) : Except AppError Unit × World :=
  if ¬ validName orgName then (.error (.conflict "organization name" orgName), w)
  else if (w.getOrganization orgName).isSome then
    (.error (.conflict "organization name" orgName), w)
  else if (w.getUser orgName).isSome then (.error (.conflict "organization name" orgName), w)
  else
    match w.organizations.insert? ⟨id, orgName⟩ with
    | none => (.error (.database .uniqueViolation), w)
    | some organizations => (.ok (), { w with
        organizations := organizations
        members := ⟨caller, id, .admin⟩ :: w.members })

def addMemberHandler (w : World) (caller : Uuid) (orgName userName : String)
    (role : OrganizationRole) : Except AppError Unit × World :=
  match w.verifyAuthorizedForOrganization ⟨caller, orgName⟩ with
  | .error e => (.error (.authorization e), w)
  | .ok () =>
    match w.getOrganization orgName, w.getUser userName with
    | none, _ => (.error (.notFound "organization" orgName), w)
    | _, none => (.error (.notFound "user" userName), w)
    | some organization, some user =>
      if w.isMember organization.id user.id then (.error (.conflict "member" userName), w)
      else (.ok (), { w with members := ⟨user.id, organization.id, role⟩ :: w.members })

/-! ### Repositories -/

/-- The row of a new repository: `create` of the repository layer, refused by
`UNIQUE(owner_id, name)`. -/
def insertRepository (w : World) (id : Uuid) (name : String) (ownerId : Uuid)
    (ownerType : RepositoryOwnerType) (visibility : RepositoryVisibility) (readonly : Bool) :
    Option (Table Repository) :=
  if w.repositories.rows.any fun r => decide (r.ownerId = ownerId ∧ r.name = name) then none
  else w.repositories.insert? ⟨id, name, ownerId, ownerType, visibility, readonly, .empty⟩

/-- The directories with the one at a path replaced. -/
def setDisk (w : World) (owner repo : String) (refs : Option Refs) :
    String → String → Option Refs :=
  fun o r => if o = owner ∧ r = repo then refs else w.disk o r

/-- The create handler. `offensive` is `is_offensive_name`. -/
def createRepositoryHandler (w : World) (offensive : String → Bool) (id caller : Uuid)
    (owner repo : String) (ownerType : RepositoryOwnerType) (visibility : RepositoryVisibility) :
    Except AppError Unit × World :=
  match w.verifyAuthorizedForRepositoryCreation ⟨caller, owner, ownerType⟩ with
  | .error e => (.error (.authorization e), w)
  | .ok () =>
    if offensive repo then (.error (.conflict "repository" s!"{repo} is not allowed"), w)
    else if (w.disk owner repo).isSome then (.error (.conflict "repository" repo), w)
    else
      let ownerId : Option Uuid := match ownerType with
        | .user => some caller
        | .organization => (w.getOrganization owner).map Organization.id
      match ownerId with
      | none => (.error (.notFound "owner" owner), w)
      | some ownerId =>
        match w.insertRepository id repo ownerId ownerType visibility false with
        | none => (.error (.database .uniqueViolation), w)
        | some repositories => (.ok (), { w with
            repositories := repositories
            disk := w.setDisk owner repo (some fun _ => none) })

/-- `migrate_single_repository`, run in the background for an owner that the
handler has authorized before: the mirrored repository, readonly or not. -/
def migrateSingleRepository (w : World) (id : Uuid) (ownerName : String) (ownerId : Uuid)
    (ownerType : RepositoryOwnerType) (repoName : String) (visibility : RepositoryVisibility)
    (readonly : Bool) (mirrored : Refs) : Except AppError Unit × World :=
  if (w.getRepository ownerName repoName).isSome then
    (.error (.conflict "repository" s!"{ownerName}/{repoName}"), w)
  else if (w.disk ownerName repoName).isSome then
    (.error (.git (.git2Error "git clone failed")), w)
  else
    match w.insertRepository id repoName ownerId ownerType visibility readonly with
    | none => (.error (.database .uniqueViolation), w)
    | some repositories => (.ok (), { w with
        repositories := repositories
        disk := w.setDisk ownerName repoName (some mirrored) })

/-- The update handler, of the readonly flag. -/
def updateRepositoryHandler (w : World) (caller : Uuid) (owner repo : String)
    (readonly : Option Bool) : Except AppError Unit × World :=
  match w.verifyAuthorizedForRepository ⟨some caller, owner, repo, .admin⟩ with
  | .error e => (.error (.authorization e), w)
  | .ok () =>
    if readonly = some true then
      (.error (.input "readonly" "a repository cannot be set to readonly"), w)
    else
      match w.getRepository owner repo with
      | none => (.error (.notFound "repository" s!"{owner}/{repo}"), w)
      | some repository => (.ok (), { w with
          repositories := w.repositories.modify repository.id
            (fun r => { r with readonly := readonly.getD r.readonly }) fun _ => rfl })

/-- The delete handler: the directory, the row, and with the row what refers
to it. -/
def deleteRepositoryHandler (w : World) (caller : Uuid) (owner repo : String) :
    Except AppError Unit × World :=
  match w.verifyAuthorizedForRepository ⟨some caller, owner, repo, .admin⟩ with
  | .error e => (.error (.authorization e), w)
  | .ok () =>
    match w.getRepository owner repo with
    | none => (.error (.notFound "repository" s!"{owner}/{repo}"), w)
    | some repository =>
      if (w.disk owner repo).isNone then (.error (.git (.git2Error "No such file or directory")), w)
      else (.ok (), { w with
        repositories := w.repositories.erase repository.id
        comments := ⟨w.comments.rows.filter fun c => (repository.reviews.get? c.reviewId).isNone,
          w.comments.sorted.filter _⟩
        verdicts := w.verdicts.filter fun v => (repository.reviews.get? v.diffId.review).isNone
        disk := w.setDisk owner repo none })

end World

/-! ### Runs -/

/-- What the server is asked to do, with what it draws and which of its calls
fail. -/
inductive Request where
  | createUser (id : Uuid) (bytes : Fin (2 ^ 32))
  | updateCurrentUser (caller : Uuid) (name : String)
  | createOrganization (id caller : Uuid) (orgName : String)
  | addMember (caller : Uuid) (orgName userName : String) (role : OrganizationRole)
  | createRepository (id caller : Uuid) (owner repo : String) (ownerType : RepositoryOwnerType)
      (visibility : RepositoryVisibility)
  | migrateRepository (id : Uuid) (ownerName : String) (ownerId : Uuid)
      (ownerType : RepositoryOwnerType) (repoName : String) (visibility : RepositoryVisibility)
      (readonly : Bool) (mirrored : Refs)
  | updateRepository (caller : Uuid) (owner repo : String) (readonly : Option Bool)
  | deleteRepository (caller : Uuid) (owner repo : String)
  | receivePack (draw : Uuid) (plan : List Bool) (request : ProcessReviewRequest)
  | publishReview (plan : List Bool) (caller : Uuid) (request : PublishReviewRequest)
  | publishReviewDiff (plan : List Bool) (caller : Uuid) (request : PublishReviewDiffRequest)
  | updateReview (plan : List Bool) (caller : Uuid) (request : UpdateReviewRequest)
  | updateReviewDiff (plan : List Bool) (caller : Uuid) (request : UpdateReviewDiffRequest)
  | mergeReviewDiff (plan : List Bool) (caller : Uuid) (request : MergeReviewDiffRequest)
  | addReviewer (caller : Uuid) (owner repo : String) (number : ℤ) (userName : String)
  | removeReviewer (caller : Uuid) (owner repo : String) (number : ℤ) (reviewerName : String)
  | reply (draw : ℕ → Uuid) (plan : List Bool) (request : ReplyToReviewCommentRequest)
  | updateComment (draw : ℕ → Uuid) (plan : List Bool) (request : UpdateReviewCommentRequest)
  | resolveComment (draw : ℕ → Uuid) (plan : List Bool) (request : ResolveReviewCommentRequest)
  | reviewDiff (draw : ℕ → Uuid) (plan : List Bool) (request : ReviewReviewDiffRequest)
  | disk (disk : String → String → Option Refs)

/-- What the server is set up with: the objects of its repositories, and which
names it refuses. -/
structure Setup where
  git : Git
  validName : String → Bool
  offensive : String → Bool

/-- The store after a request. -/
def serve (c : Setup) : Request → World → World
  | .createUser id bytes, w => (w.createUser id bytes).2
  | .updateCurrentUser caller name, w => (w.updateCurrentUser c.validName caller name).2
  | .createOrganization id caller orgName, w =>
    (w.createOrganization c.validName id caller orgName).2
  | .addMember caller orgName userName role, w => (w.addMemberHandler caller orgName userName role).2
  | .createRepository id caller owner repo ownerType visibility, w =>
    (w.createRepositoryHandler c.offensive id caller owner repo ownerType visibility).2
  | .migrateRepository id ownerName ownerId ownerType repoName visibility readonly mirrored, w =>
    (w.migrateSingleRepository id ownerName ownerId ownerType repoName visibility readonly
      mirrored).2
  | .updateRepository caller owner repo readonly, w =>
    (w.updateRepositoryHandler caller owner repo readonly).2
  | .deleteRepository caller owner repo, w => (w.deleteRepositoryHandler caller owner repo).2
  | .receivePack draw plan request, w => (w.gitReceivePack c.git draw plan request).2
  | .publishReview plan caller request, w => (w.publishReviewHandler c.git plan caller request).2
  | .publishReviewDiff plan caller request, w =>
    (w.publishReviewDiffHandler c.git plan caller request).2
  | .updateReview plan caller request, w => (w.updateReviewHandler c.git plan caller request).2
  | .updateReviewDiff plan caller request, w =>
    (w.updateReviewDiffHandler c.git plan caller request).2
  | .mergeReviewDiff plan caller request, w =>
    (w.mergeReviewDiffHandler c.git plan (fun _ => .ok ()) caller request).2
  | .addReviewer caller owner repo number userName, w =>
    (w.addReviewReviewerHandler caller owner repo number userName).2
  | .removeReviewer caller owner repo number reviewerName, w =>
    (w.removeReviewReviewerHandler caller owner repo number reviewerName).2
  | .reply draw plan request, w => (w.replyToReviewCommentHandler draw plan request).2
  | .updateComment draw plan request, w => (w.updateReviewCommentHandler draw plan request).2
  | .resolveComment draw plan request, w => (w.resolveReviewCommentHandler draw plan request).2
  | .reviewDiff draw plan request, w => (w.reviewReviewDiffHandler draw plan request).2
  | .disk disk, w => { w with disk := disk }

/-- The store before the first request. -/
def emptyWorld : World where
  users := .empty
  organizations := .empty
  members := []
  repositories := .empty
  comments := .empty
  verdicts := []
  disk _ _ := none

end Gitdot
