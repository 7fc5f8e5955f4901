/-
# Who may see a repository

The access check decides in the program, the listings in their queries, where the
viewer is null for someone anonymous and the conditions are three-valued. Both come
to the same rule (`holds_readable`, `authorizeRepository_read`), so a listing shows
a viewer only what the check accepts, and the listing of an owner all of it
(`listings_agree`).

The check looks a path up again. Where a user and an organization share a name it
may find the repository of the other one; what it asks of the repository itself
does not depend on the path.

Key definitions: `ProfileStore`, `readable`, `listRepositories`,
`listStarredRepositories`, `listByUser`, `Shown`, `ListingsAgree`.
Key theorems: `holds_readable`, `authorizeRepository_read`, `visible_of_shown`,
`listings_agree`.
-/
import Gitdot.Lib.Kleene
import Gitdot.Server.Authorization
import Gitdot.Server.Listings

namespace Gitdot
namespace Visibility

open Lib Keyed Listings World
open Ci (Cursor RunnerSetup listByOwner repositoryCursor visibleTo)
open Auth (Time)

/-! ### Rows -/

/-- A row of `core.stars`. -/
structure Star where
  id : Uuid
  userId : Uuid
  repositoryId : Uuid
  createdAt : Time
  deriving DecidableEq

instance : Keyed Star Uuid := ⟨Star.id⟩

/-- The store with the rows that a profile is listed from. -/
structure ProfileStore extends ListingStore where
  stars : Table Star

/-- A repository with what a user has committed to it, null without commits. -/
structure UserRepo where
  repository : Repository
  commitCount : Option ℕ
  lastCommitAt : Option Time
  deriving DecidableEq

structure StarredRepo where
  repository : Repository
  starredAt : Time
  starId : Uuid
  deriving DecidableEq

/-- A commit with what the query says of the viewer. -/
structure UserCommit where
  commit : CommitRow
  viewerHasAccess : Bool
  deriving DecidableEq

/-! ### The queries -/

section Queries

variable (c : RunnerSetup) (s : ProfileStore)

/-- `viewer_orgs`. -/
def viewerOrgs (w : World) (viewer : Option Uuid) : List (Option Uuid) :=
  (w.members.filter fun m => decide (Truth.eq (some m.userId) viewer).Holds).map fun m =>
    some m.organizationId

/-- The condition of the listings on a repository. -/
def readable (w : World) (viewer : Option Uuid) (r : Repository) : Truth :=
  ((Truth.ofBool r.isPublic).or
    ((Truth.ofBool (decide (r.ownerType = .user))).and (Truth.eq (some r.ownerId) viewer))).or
      ((Truth.ofBool (decide (r.ownerType = .organization))).and
        (Truth.isIn (some r.ownerId) (viewerOrgs w viewer)))

/-- The condition of `list_repositories`. -/
def ownReadable (userId : Uuid) (viewer : Option Uuid) (r : Repository) : Truth :=
  ((Truth.ofBool (decide (r.ownerType = .user))).and
    (Truth.eq (some r.ownerId) (some userId))).and
      ((Truth.ofBool r.isPublic).or (Truth.eq (some r.ownerId) viewer))

/-- The commits that `agg` counts for a repository. -/
def authored (userId repoId : Uuid) : List CommitRow :=
  s.commits.rows.filter fun commit =>
    decide (commit.authorId = some userId ∧ commit.repoId = repoId)

/-- A row of the join with `agg`. -/
def withCommits (userId : Uuid) (r : Repository) : UserRepo :=
  let commits := authored s userId r.id
  ⟨r, if commits.isEmpty then none else some commits.length,
    (commits.map CommitRow.createdAt).max?⟩

/-- `list_repositories`. -/
def listRepositories (userId : Uuid) (viewer : Option Uuid) (cursor : Option Cursor) (limit : ℕ) :
    List UserRepo × Option Cursor :=
  page (fun row => repositoryCursor c row.repository) cursor limit
    ((s.world.repositories.rows.filter fun r => decide (ownReadable userId viewer r).Holds).map
      (withCommits s userId))

/-- The rows that `list_starred_repositories` matches. -/
def starredBy (userId : Uuid) (viewer : Option Uuid) : List StarredRepo :=
  (s.stars.rows.filter fun star => decide (star.userId = userId)).filterMap fun star =>
    ((s.world.repositories.get? star.repositoryId).filter fun r =>
      decide (readable s.world viewer r).Holds).map fun r => ⟨r, star.createdAt, star.id⟩

/-- `list_starred_repositories`. -/
def listStarredRepositories (userId : Uuid) (viewer : Option Uuid) (cursor : Option Cursor)
    (limit : ℕ) : List Repository × Option Cursor :=
  let out := page (fun row : StarredRepo => (⟨row.starredAt, row.starId⟩ : Cursor)) cursor limit
    (starredBy s userId viewer)
  (out.1.map StarredRepo.repository, out.2)

/-- The rows of `list_by_user`: the condition is a column, with null as `false`. -/
def commitsBy (authorId : Uuid) (viewer : Option Uuid) (start stop : Time) : List UserCommit :=
  (s.commits.rows.filter fun commit =>
    decide ((Truth.eq commit.authorId (some authorId)).Holds ∧ start ≤ commit.createdAt ∧
      commit.createdAt ≤ stop)).filterMap fun commit =>
    (s.world.repositories.get? commit.repoId).map fun r =>
      ⟨commit, decide (readable s.world viewer r).Holds⟩

/-- `list_by_user`. -/
def listByUser (authorId : Uuid) (viewer : Option Uuid) (start stop : Time) (cursor : Option Cursor)
    (limit : ℕ) : List UserCommit × Option Cursor :=
  page (fun row => row.commit.cursor) cursor limit (commitsBy s authorId viewer start stop)

end Queries

/-! ### One rule -/

section Rule

variable {w : World} {viewer : Option Uuid} {r : Repository}

theorem mem_viewerOrgs {id : Uuid} :
    some id ∈ viewerOrgs w viewer ↔ (viewer.any fun v => w.isMember id v) = true := by
  simp only [viewerOrgs, List.mem_map, List.mem_filter, decide_eq_true_eq, Truth.holds_eq_some,
    Option.some.injEq, isMember, List.any_eq_true, Option.any_eq_true]
  constructor
  · rintro ⟨m, ⟨hm, hviewer⟩, horg⟩
    exact ⟨m.userId, hviewer, m, hm, horg, rfl⟩
  · rintro ⟨v, hviewer, m, hm, horg, huser⟩
    exact ⟨m, ⟨hm, huser ▸ hviewer⟩, horg⟩

/-- The condition holds of what the viewer is shown. -/
theorem holds_readable : (readable w viewer r).Holds ↔ visibleTo w viewer r = true := by
  simp only [readable, Truth.holds_or, Truth.holds_and, Truth.holds_ofBool, decide_eq_true_eq,
    Truth.holds_eq_some, Truth.holds_isIn_some, mem_viewerOrgs, visibleTo, Bool.or_eq_true,
    Bool.and_eq_true, Repository.isOwnedByUser]
  cases r.ownerType <;> simp

theorem visibleTo_of_ownReadable {userId : Uuid} (h : (ownReadable userId viewer r).Holds) :
    visibleTo w viewer r = true := by
  simp only [ownReadable, Truth.holds_or, Truth.holds_and, Truth.holds_ofBool, decide_eq_true_eq,
    Truth.holds_eq_some] at h
  obtain ⟨⟨huser, -⟩, hpublic | rfl⟩ := h
  · simp only [visibleTo, hpublic, Bool.true_or]
  · simp [visibleTo, Repository.isOwnedByUser, huser]

/-- What the check asks of a repository to be read. -/
theorem authorizeRepository_read {owner repo : String} :
    w.authorizeRepository r ⟨viewer, owner, repo, .read⟩ = .ok () ↔
      visibleTo w viewer r = true := by
  unfold authorizeRepository visibleTo
  cases hpublic : r.isPublic with
  | true => simp
  | false =>
    cases viewer with
    | none => simp
    | some v =>
      cases hown : r.isOwnedByUser with
      | true => by_cases hid : r.ownerId = v <;> simp [hid, eq_comm (a := v)]
      | false => simp

end Rule

/-! ### What a viewer is shown -/

section Listings

variable {c : RunnerSetup} {s : ProfileStore} {viewer : Option Uuid} {r : Repository}

/-- The query of an owner's listing, in the conditions' terms. -/
theorem repositoriesOf_eq {w : World} (ownerName : String) :
    Ci.repositoriesOf w ownerName viewer = w.repositories.rows.filter fun r =>
      decide (r.ownerId ∈ w.ownerIds ownerName) && decide (readable w viewer r).Holds := by
  refine List.filter_congr fun r _ => ?_
  rw [Bool.eq_iff_iff]
  simp only [Bool.and_eq_true, decide_eq_true_eq, holds_readable]

/-- The repository is in a listing for the viewer, or its commits count as
accessible in one. -/
inductive Shown (c : RunnerSetup) (s : ProfileStore) (viewer : Option Uuid) (r : Repository) :
    Prop where
  | byOwner {ownerName cursor limit}
      (listed : r ∈ (listByOwner c s.world ownerName viewer cursor limit).1) : Shown c s viewer r
  | own {userId cursor limit row}
      (listed : row ∈ (listRepositories c s userId viewer cursor limit).1)
      (repository : row.repository = r) : Shown c s viewer r
  | starred {userId cursor limit}
      (listed : r ∈ (listStarredRepositories s userId viewer cursor limit).1) : Shown c s viewer r
  | contributed {userId since cursor limit row}
      (listed : row ∈ (listContributedRepositories s.toListingStore userId viewer since cursor limit).1)
      (repository : row.repository = r) : Shown c s viewer r
  | commits {authorId start stop cursor limit row}
      (listed : row ∈ (listByUser s authorId viewer start stop cursor limit).1)
      (access : row.viewerHasAccess = true)
      (repository : s.world.repositories.get? row.commit.repoId = some r) : Shown c s viewer r

/-- Whatever is shown is a row that the viewer may see. -/
theorem visible_of_shown (h : Shown c s viewer r) :
    r ∈ s.world.repositories.rows ∧ visibleTo s.world viewer r = true := by
  cases h with
  | byOwner listed =>
    obtain ⟨hr, -, hvisible⟩ := Ci.mem_repositoriesOf.mp (mem_of_mem_page listed)
    exact ⟨hr, hvisible⟩
  | own listed repository =>
    obtain ⟨r, hr, rfl⟩ := List.mem_map.mp (mem_of_mem_page listed)
    obtain ⟨hr, hown⟩ := List.mem_filter.mp hr
    subst repository
    exact ⟨hr, visibleTo_of_ownReadable (of_decide_eq_true hown)⟩
  | starred listed =>
    obtain ⟨row, hrow, rfl⟩ := List.mem_map.mp listed
    obtain ⟨star, -, hstar⟩ := List.mem_filterMap.mp (mem_of_mem_page hrow)
    obtain ⟨r, hr, rfl⟩ := Option.map_eq_some_iff.mp hstar
    obtain ⟨hr, hreadable⟩ := Option.filter_eq_some_iff.mp hr
    exact ⟨Table.mem_rows_of_get? hr, holds_readable.mp (of_decide_eq_true hreadable)⟩
  | contributed listed repository =>
    obtain ⟨hr, hvisible, -⟩ := mem_contributedBy.mp (mem_of_mem_page listed)
    subst repository
    exact ⟨Table.mem_rows_of_get? hr, hvisible⟩
  | commits listed access repository =>
    obtain ⟨commit, -, hcommit⟩ := List.mem_filterMap.mp (mem_of_mem_page listed)
    obtain ⟨r', hr, rfl⟩ := Option.map_eq_some_iff.mp hcommit
    obtain rfl := Option.some.inj (hr.symm.trans repository)
    exact ⟨Table.mem_rows_of_get? hr, holds_readable.mp (of_decide_eq_true access)⟩

/-- How listings and check agree for a viewer. What the check asks of a repository
is what the queries ask, and it passes for every repository that is shown: also
when the path is looked up again, unless a user and an organization share the
owner's name. An owner's listing that is long enough holds all that the check
accepts. -/
structure ListingsAgree (c : RunnerSetup) (s : ProfileStore) (viewer : Option Uuid) : Prop where
  rule : ∀ r owner repo, (readable s.world viewer r).Holds ↔
    s.world.authorizeRepository r ⟨viewer, owner, repo, .read⟩ = .ok ()
  shown : ∀ r, Shown c s viewer r → ∀ owner repo,
    s.world.authorizeRepository r ⟨viewer, owner, repo, .read⟩ = .ok () ∧
      (s.world.getRepository owner repo = some r →
        s.world.verifyAuthorizedForRepository ⟨viewer, owner, repo, .read⟩ = .ok ())
  found : ∀ r, Shown c s viewer r → ∀ owner, r.ownerId ∈ s.world.ownerIds owner →
    s.world.Unique → ¬ s.world.SharedName owner →
      s.world.verifyAuthorizedForRepository ⟨viewer, owner, r.name, .read⟩ = .ok ()
  listed : ∀ r ∈ s.world.repositories.rows, ∀ owner, r.ownerId ∈ s.world.ownerIds owner →
    s.world.authorizeRepository r ⟨viewer, owner, r.name, .read⟩ = .ok () →
      ∀ limit, s.world.repositories.rows.length ≤ limit →
        r ∈ (listByOwner c s.world owner viewer none limit).1
  accepted : ∀ owner repo,
    s.world.verifyAuthorizedForRepository ⟨viewer, owner, repo, .read⟩ = .ok () →
      ∃ r, s.world.getRepository owner repo = some r ∧
        ∀ limit, s.world.repositories.rows.length ≤ limit →
          r ∈ (listByOwner c s.world owner viewer none limit).1

/-- The check passes where it finds a repository that the viewer may see. -/
theorem verifyAuthorizedForRepository_read {w : World} {owner repo : String} :
    w.verifyAuthorizedForRepository ⟨viewer, owner, repo, .read⟩ = .ok () ↔
      ∃ r, w.getRepository owner repo = some r ∧ visibleTo w viewer r = true := by
  unfold verifyAuthorizedForRepository
  cases h : w.getRepository owner repo with
  | none => simp
  | some r => simp [authorizeRepository_read]

/-- A repository that the viewer may see is in its owner's listing. -/
theorem mem_listByOwner_of_visible {w : World} {owner : String} {limit : ℕ}
    (hr : r ∈ w.repositories.rows) (howner : r.ownerId ∈ w.ownerIds owner)
    (hvisible : visibleTo w viewer r = true) (hlimit : w.repositories.rows.length ≤ limit) :
    r ∈ (listByOwner c w owner viewer none limit).1 :=
  (mem_page_of_le ((List.length_filter_le _ _).trans hlimit)).mpr
    (Ci.mem_repositoriesOf.mpr ⟨hr, howner, hvisible⟩)

/-- **Listings and access checks agree.** -/
theorem listings_agree (c : RunnerSetup) (s : ProfileStore) (viewer : Option Uuid) :
    ListingsAgree c s viewer where
  rule r owner repo := holds_readable.trans authorizeRepository_read.symm
  shown r h owner repo := by
    have hvisible := (visible_of_shown h).2
    exact ⟨authorizeRepository_read.mpr hvisible,
      fun hfound => verifyAuthorizedForRepository_read.mpr ⟨r, hfound, hvisible⟩⟩
  found r h owner howner hunique hshared := by
    obtain ⟨hr, hvisible⟩ := visible_of_shown h
    have hpath : r ∈ s.world.repositoriesAt owner r.name :=
      mem_repositoriesAt.mpr ⟨hr, rfl, howner⟩
    exact verifyAuthorizedForRepository_read.mpr
      ⟨r, hunique.getRepository hshared hpath, hvisible⟩
  listed r hr owner howner hok limit hlimit :=
    mem_listByOwner_of_visible hr howner (authorizeRepository_read.mp hok) hlimit
  accepted owner repo hok := by
    obtain ⟨r, hfound, hvisible⟩ := verifyAuthorizedForRepository_read.mp hok
    obtain ⟨hr, -, howner⟩ := mem_repositoriesAt.mp (getRepository_mem hfound)
    exact ⟨r, hfound, fun limit hlimit => mem_listByOwner_of_visible hr howner hvisible hlimit⟩

end Listings

end Visibility
end Gitdot
