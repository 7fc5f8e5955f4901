/-
# The server's store

The tables of `core` that decide who may do what: accounts, organizations
and their members, repositories with their reviews, and the comments and
verdicts on these; next to them the git directories on disk, one for each
path `owner/repo`.

A path names a repository through its owner's name, which is looked up among
the users and among the organizations: `repositoriesAt` are the rows the
query meets, and `getRepository` is the first of them. Each table keeps its
own names unique and the service checks a new name against both, but a
sign-up draws its handle and checks it against the users only. A user and an
organization may then share a name (`SharedName`), and only then can a path
lead to two repositories.

Key definitions: `Repository`, `ReviewComment`, `World`,
`World.getRepository`, `World.getReviewByNumber`, `World.SharedName`,
`World.Unique`.
Key theorems: `World.Unique.repositoryAt`, `World.Unique.getRepository`.
-/
import Gitdot.Review.Store

namespace Gitdot

open Lib

/-! ### Rows -/

/-- A row of `core.users`: its id and its handle. -/
structure User where
  id : Uuid
  name : String
  deriving DecidableEq

instance : Keyed User Uuid := ⟨User.id⟩

theorem User.key_named (name : String) (u : User) : Keyed.key { u with name := name } = u.id := rfl

/-- A row of `core.organizations`. -/
structure Organization where
  id : Uuid
  name : String
  deriving DecidableEq

instance : Keyed Organization Uuid := ⟨Organization.id⟩

/-- `OrganizationRole`. -/
inductive OrganizationRole where
  | admin
  | member
  deriving DecidableEq

/-- A row of `core.organization_members`. -/
structure OrganizationMember where
  userId : Uuid
  organizationId : Uuid
  role : OrganizationRole
  deriving DecidableEq

/-- `RepositoryOwnerType`. -/
inductive RepositoryOwnerType where
  | user
  | organization
  deriving DecidableEq

/-- `RepositoryVisibility`. -/
inductive RepositoryVisibility where
  | publicRepo
  | privateRepo
  deriving DecidableEq

/-- A row of `core.repositories` with its reviews. -/
structure Repository where
  id : Uuid
  name : String
  ownerId : Uuid
  ownerType : RepositoryOwnerType
  visibility : RepositoryVisibility
  readonly : Bool
  reviews : Table Review
  deriving DecidableEq

instance : Keyed Repository Uuid := ⟨Repository.id⟩

/-- `is_owned_by_user`. -/
def Repository.isOwnedByUser (r : Repository) : Bool := r.ownerType = .user

/-- `is_public`. -/
def Repository.isPublic (r : Repository) : Bool := r.visibility = .publicRepo

/-- The review of the repository with this number. -/
def Repository.getReviewByNumber (r : Repository) (number : ℤ) : Option Review :=
  r.reviews.rows.find? fun review => decide (review.number = number)

/-- `CommentSide`. -/
inductive CommentSide where
  | old
  | new
  deriving DecidableEq

/-- Where in a file a comment stands, all columns null for a reply. -/
structure CommentPlace where
  filePath : Option String
  lineNumberStart : Option ℤ
  lineNumberEnd : Option ℤ
  startCharacter : Option ℤ
  endCharacter : Option ℤ
  side : Option CommentSide
  deriving DecidableEq

/-- No place. -/
def CommentPlace.none : CommentPlace := ⟨.none, .none, .none, .none, .none, .none⟩

/-- A row of `core.review_comments`. -/
structure ReviewComment where
  id : Uuid
  reviewId : Uuid
  diffId : DiffId
  revisionId : RevisionId
  authorId : Uuid
  parentId : Option Uuid
  body : String
  place : CommentPlace
  resolved : Bool
  deriving DecidableEq

instance : Keyed ReviewComment Uuid := ⟨ReviewComment.id⟩

/-- `Verdict`. -/
inductive Verdict where
  | approved
  | rejected
  deriving DecidableEq

/-- A row of `core.review_verdicts`. -/
structure ReviewVerdict where
  diffId : DiffId
  revisionId : RevisionId
  reviewerId : Uuid
  verdict : Verdict
  deriving DecidableEq

@[simp] theorem key_user (u : User) : Keyed.key u = u.id := rfl
@[simp] theorem key_organization (o : Organization) : Keyed.key o = o.id := rfl
@[simp] theorem key_repository (r : Repository) : Keyed.key r = r.id := rfl
@[simp] theorem key_reviewComment (c : ReviewComment) : Keyed.key c = c.id := rfl

/-! ### The store -/

/-- The store of the server. `disk owner repo` is where the refs of the git
directory at that path point, `none` if there is no such directory. -/
structure World where
  users : Table User
  organizations : Table Organization
  members : List OrganizationMember
  repositories : Table Repository
  comments : Table ReviewComment
  verdicts : List ReviewVerdict
  disk : String → String → Option Refs

namespace World

variable (w : World)

/-- The user of this name. -/
def getUser (name : String) : Option User := w.users.rows.find? fun u => decide (u.name = name)

/-- The organization of this name. -/
def getOrganization (name : String) : Option Organization :=
  w.organizations.rows.find? fun o => decide (o.name = name)

/-- `is_name_taken`. -/
def isNameTaken (name : String) : Bool :=
  (w.getUser name).isSome || (w.getOrganization name).isSome

/-- `is_member`. -/
def isMember (organization user : Uuid) : Bool :=
  w.members.any fun m => decide (m.organizationId = organization ∧ m.userId = user)

/-- `get_member_role`. -/
def getMemberRole (orgName : String) (user : Uuid) : Option OrganizationRole :=
  (w.getOrganization orgName).bind fun o =>
    (w.members.find? fun m => decide (m.organizationId = o.id ∧ m.userId = user)).map
      OrganizationMember.role

/-- The ids a path's owner stands for: the users and the organizations of
this name. -/
def ownerIds (owner : String) : List Uuid :=
  (w.users.rows.filter fun u => decide (u.name = owner)).map User.id ++
    (w.organizations.rows.filter fun o => decide (o.name = owner)).map Organization.id

/-- The rows the query for `owner/repo` meets. -/
def repositoriesAt (owner repo : String) : List Repository :=
  w.repositories.rows.filter fun r => decide (r.name = repo ∧ r.ownerId ∈ w.ownerIds owner)

/-- The repository at a path: `get`. -/
def getRepository (owner repo : String) : Option Repository := (w.repositoriesAt owner repo).head?

/-- The repository at a path that has a review of this number. -/
def repositoryWith (owner repo : String) (number : ℤ) : Option Repository :=
  (w.repositoriesAt owner repo).find? fun r => (r.getReviewByNumber number).isSome

/-- `get_review_by_number`. -/
def getReviewByNumber (owner repo : String) (number : ℤ) : Option Review :=
  (w.repositoryWith owner repo number).bind fun r => r.getReviewByNumber number

/-- A revision exists: what the foreign keys that point to one ask. -/
def hasRevision (id : RevisionId) : Bool :=
  w.repositories.rows.any fun r =>
    (((r.reviews.get? id.diff.review).bind fun review =>
      review.diffs.get? id.diff.position).bind fun diff => diff.revisions.get? id.number).isSome

/-! ### What a path leads to -/

variable {w}

theorem mem_ownerIds {owner : String} {id : Uuid} :
    id ∈ w.ownerIds owner ↔ (∃ u ∈ w.users.rows, u.name = owner ∧ u.id = id) ∨
      ∃ o ∈ w.organizations.rows, o.name = owner ∧ o.id = id := by
  simp [ownerIds, and_assoc]

theorem mem_repositoriesAt {owner repo : String} {r : Repository} :
    r ∈ w.repositoriesAt owner repo ↔
      r ∈ w.repositories.rows ∧ r.name = repo ∧ r.ownerId ∈ w.ownerIds owner := by
  simp [repositoriesAt]

theorem getRepository_mem {owner repo : String} {r : Repository}
    (h : w.getRepository owner repo = some r) : r ∈ w.repositoriesAt owner repo :=
  List.mem_of_mem_head? h

theorem repositoryWith_mem {owner repo : String} {number : ℤ} {r : Repository}
    (h : w.repositoryWith owner repo number = some r) : r ∈ w.repositoriesAt owner repo :=
  List.mem_of_find?_eq_some h

/-- A review found by its path is a row of a repository at that path. -/
theorem getReviewByNumber_eq_some {owner repo : String} {number : ℤ} {review : Review}
    (h : w.getReviewByNumber owner repo number = some review) :
    ∃ r, w.repositoryWith owner repo number = some r ∧ r.getReviewByNumber number = some review :=
  Option.bind_eq_some_iff.mp h

theorem Repository.mem_of_getReviewByNumber {r : Repository} {number : ℤ} {review : Review}
    (h : r.getReviewByNumber number = some review) : review ∈ r.reviews.rows :=
  List.mem_of_find?_eq_some h

/-- A user and an organization of one name. -/
def SharedName (w : World) (name : String) : Prop :=
  (∃ u ∈ w.users.rows, u.name = name) ∧ ∃ o ∈ w.organizations.rows, o.name = name

instance (w : World) (name : String) : Decidable (w.SharedName name) :=
  inferInstanceAs (Decidable (_ ∧ _))

/-- The unique indexes of the store: on the users' names, on the
organizations' names, and on the owner and the name of a repository. -/
structure Unique (w : World) : Prop where
  user : ∀ u ∈ w.users.rows, ∀ v ∈ w.users.rows, u.name = v.name → u = v
  organization : ∀ o ∈ w.organizations.rows, ∀ p ∈ w.organizations.rows, o.name = p.name → o = p
  repository : ∀ r ∈ w.repositories.rows, ∀ q ∈ w.repositories.rows,
    r.ownerId = q.ownerId → r.name = q.name → r = q

/-- A name that no user shares with an organization stands for one id. -/
theorem Unique.ownerId {owner : String} (h : w.Unique) (hs : ¬ w.SharedName owner) {i j : Uuid}
    (hi : i ∈ w.ownerIds owner) (hj : j ∈ w.ownerIds owner) : i = j := by
  rcases mem_ownerIds.mp hi with ⟨u, hu, hun, rfl⟩ | ⟨o, ho, hon, rfl⟩ <;>
    rcases mem_ownerIds.mp hj with ⟨v, hv, hvn, rfl⟩ | ⟨p, hp, hpn, rfl⟩
  · rw [h.user u hu v hv (hun.trans hvn.symm)]
  · exact absurd ⟨⟨u, hu, hun⟩, p, hp, hpn⟩ hs
  · exact absurd ⟨⟨v, hv, hvn⟩, o, ho, hon⟩ hs
  · rw [h.organization o ho p hp (hon.trans hpn.symm)]

/-- Under such a name a path leads to one repository. -/
theorem Unique.repositoryAt {owner repo : String} (h : w.Unique) (hs : ¬ w.SharedName owner)
    {r q : Repository} (hr : r ∈ w.repositoriesAt owner repo)
    (hq : q ∈ w.repositoriesAt owner repo) : r = q := by
  obtain ⟨hr, hrn, hro⟩ := mem_repositoriesAt.mp hr
  obtain ⟨hq, hqn, hqo⟩ := mem_repositoriesAt.mp hq
  exact h.repository r hr q hq (h.ownerId hs hro hqo) (hrn.trans hqn.symm)

theorem Unique.getRepository {owner repo : String} (h : w.Unique) (hs : ¬ w.SharedName owner)
    {r : Repository} (hr : r ∈ w.repositoriesAt owner repo) :
    w.getRepository owner repo = some r := by
  have hne : w.repositoriesAt owner repo ≠ [] := List.ne_nil_of_mem hr
  obtain ⟨q, hq⟩ := Option.isSome_iff_exists.mp (List.isSome_head?.mpr hne)
  rw [World.getRepository, hq, h.repositoryAt hs hr (List.mem_of_mem_head? hq)]

end World
end Gitdot
