/-
# Authorization

The checks of `AuthorizationServiceImpl` that stand before the handlers
modelled here, as functions of the store; each says of one request whether
it may go on.

Key definitions: `World.verifyAuthorizedForRepository`,
`World.verifyAuthorizedForReview`, `World.verifyAuthorizedForReviewing`,
`World.verifyAuthorizedForReviewComment`, `World.MayPush`.
Key theorems: `World.verifyAuthorizedForReview_ok`,
`World.verifyAuthorizedForReviewing_ok`,
`World.verifyAuthorizedForRepository_write`.
-/
import Gitdot.Server.World

namespace Gitdot

open Lib

/-- `AuthorizationError`, of a request whose names are well formed. -/
inductive AuthorizationError where
  | unauthorized
  | readonlyRepository
  | notFound (entity id : String)
  deriving DecidableEq

/-- The errors of the handlers: of the authorization in front, of the review
service, and of the services for accounts and repositories. -/
inductive AppError where
  | authorization (e : AuthorizationError)
  | review (e : ReviewError)
  | input (field reason : String)
  | notFound (entity id : String)
  | conflict (entity id : String)
  | database (e : DatabaseError)
  | git (e : GitError)
  deriving DecidableEq

/-- `RepositoryPermission`. -/
inductive RepositoryPermission where
  | read
  | write
  | admin
  deriving DecidableEq

structure RepositoryAuthorizationRequest where
  userId : Option Uuid
  owner : String
  repo : String
  permission : RepositoryPermission
  deriving DecidableEq

structure RepositoryCreationAuthorizationRequest where
  userId : Uuid
  owner : String
  ownerType : RepositoryOwnerType
  deriving DecidableEq

structure OrganizationAuthorizationRequest where
  userId : Uuid
  orgName : String
  deriving DecidableEq

structure ReviewAuthorizationRequest where
  userId : Uuid
  owner : String
  repo : String
  number : ℤ
  deriving DecidableEq

structure ReviewingAuthorizationRequest where
  userId : Uuid
  owner : String
  repo : String
  number : ℤ
  deriving DecidableEq

structure ReviewCommentAuthorizationRequest where
  userId : Uuid
  commentId : Uuid
  deriving DecidableEq

namespace World

variable (w : World)

/-- What `verify_authorized_for_repository` asks of the repository it found. -/
def authorizeRepository (repository : Repository) (request : RepositoryAuthorizationRequest) :
    Except AuthorizationError Unit :=
  if repository.readonly ∧ request.permission = .write then .error .readonlyRepository
  else if request.permission = .read ∧ repository.isPublic then .ok ()
  else
    match request.userId with
    | none => .error .unauthorized
    | some userId =>
      if repository.isOwnedByUser then
        if repository.ownerId ≠ userId then .error .unauthorized else .ok ()
      else
        let authorized :=
          if request.permission = .admin then
            decide (w.getMemberRole request.owner userId = some .admin)
          else w.isMember repository.ownerId userId
        if authorized then .ok () else .error .unauthorized

def verifyAuthorizedForRepository (request : RepositoryAuthorizationRequest) :
    Except AuthorizationError Unit :=
  match w.getRepository request.owner request.repo with
  | none => .error (.notFound "repository" s!"{request.owner}/{request.repo}")
  | some repository => w.authorizeRepository repository request

def verifyAuthorizedForRepositoryCreation (request : RepositoryCreationAuthorizationRequest) :
    Except AuthorizationError Unit :=
  match request.ownerType with
  | .user =>
    match w.users.get? request.userId with
    | none => .error .unauthorized
    | some user =>
      if user.name.toLower ≠ request.owner.toLower then .error .unauthorized else .ok ()
  | .organization =>
    match w.getOrganization request.owner with
    | none => .error .unauthorized
    | some org => if w.isMember org.id request.userId then .ok () else .error .unauthorized

def verifyAuthorizedForOrganization (request : OrganizationAuthorizationRequest) :
    Except AuthorizationError Unit :=
  match w.getMemberRole request.orgName request.userId with
  | some .admin => .ok ()
  | _ => .error .unauthorized

def verifyAuthorizedForReview (request : ReviewAuthorizationRequest) :
    Except AuthorizationError Unit :=
  match w.getReviewByNumber request.owner request.repo request.number with
  | none => .error .unauthorized
  | some review => if review.authorId ≠ request.userId then .error .unauthorized else .ok ()

def verifyAuthorizedForReviewComment (request : ReviewCommentAuthorizationRequest) :
    Except AuthorizationError Unit :=
  match w.comments.get? request.commentId with
  | none => .error .unauthorized
  | some comment => if comment.authorId ≠ request.userId then .error .unauthorized else .ok ()

def verifyAuthorizedForReviewing (request : ReviewingAuthorizationRequest) :
    Except AuthorizationError Unit :=
  match w.getReviewByNumber request.owner request.repo request.number with
  | none => .error .unauthorized
  | some review =>
    if review.authorId ≠ request.userId ∧ request.userId ∉ review.reviewers then
      .error .unauthorized
    else .ok ()

/-! ### What a check that passes says -/

variable {w}

theorem verifyAuthorizedForReview_ok {request : ReviewAuthorizationRequest} :
    w.verifyAuthorizedForReview request = .ok () ↔
      ∃ review, w.getReviewByNumber request.owner request.repo request.number = some review ∧
        review.authorId = request.userId := by
  unfold verifyAuthorizedForReview
  cases w.getReviewByNumber request.owner request.repo request.number with
  | none => simp
  | some review => by_cases h : review.authorId = request.userId <;> simp [h]

theorem verifyAuthorizedForReviewComment_ok {request : ReviewCommentAuthorizationRequest} :
    w.verifyAuthorizedForReviewComment request = .ok () ↔
      ∃ comment, w.comments.get? request.commentId = some comment ∧
        comment.authorId = request.userId := by
  unfold verifyAuthorizedForReviewComment
  cases w.comments.get? request.commentId with
  | none => simp
  | some comment => by_cases h : comment.authorId = request.userId <;> simp [h]

/-- Author or assigned reviewer. -/
def MayReview (review : Review) (user : Uuid) : Prop :=
  review.authorId = user ∨ user ∈ review.reviewers

instance (review : Review) (user : Uuid) : Decidable (MayReview review user) :=
  inferInstanceAs (Decidable (_ ∨ _))

theorem verifyAuthorizedForReviewing_ok {request : ReviewingAuthorizationRequest} :
    w.verifyAuthorizedForReviewing request = .ok () ↔
      ∃ review, w.getReviewByNumber request.owner request.repo request.number = some review ∧
        MayReview review request.userId := by
  unfold verifyAuthorizedForReviewing MayReview
  cases w.getReviewByNumber request.owner request.repo request.number with
  | none => simp
  | some review =>
    by_cases ha : review.authorId = request.userId <;>
      by_cases hr : request.userId ∈ review.reviewers <;> simp [ha, hr]

/-- The user may push to the repository: it is not readonly, and is the
user's own or one of an organization that the user is a member of. -/
def MayPush (w : World) (repository : Repository) (user : Uuid) : Prop :=
  repository.readonly = false ∧
    if repository.isOwnedByUser then repository.ownerId = user
    else w.isMember repository.ownerId user = true

instance (repository : Repository) (user : Uuid) : Decidable (w.MayPush repository user) :=
  inferInstanceAs (Decidable (_ ∧ _))

theorem authorizeRepository_write {repository : Repository} {user : Uuid} {owner repo : String} :
    w.authorizeRepository repository ⟨some user, owner, repo, .write⟩ = .ok () ↔
      w.MayPush repository user := by
  unfold authorizeRepository MayPush
  cases hr : repository.readonly <;> cases ho : repository.isOwnedByUser <;> simp

/-- A write is granted where the path leads to a repository the caller may
push to. -/
theorem verifyAuthorizedForRepository_write {user : Uuid} {owner repo : String} :
    w.verifyAuthorizedForRepository ⟨some user, owner, repo, .write⟩ = .ok () ↔
      ∃ repository, w.getRepository owner repo = some repository ∧ w.MayPush repository user := by
  unfold verifyAuthorizedForRepository
  cases h : w.getRepository owner repo with
  | none => simp
  | some repository => simp [authorizeRepository_write]

end World
end Gitdot
