/-
# Who may see a review

A repository's reviews are listed behind the check of the repository, without the
drafts of others; a user's reviews are listed without a check, the viewer's own and
of others those that are published in public repositories. A review and the blobs
of a diff are returned by their number to whoever may read the repository.

So what a listing shows can be opened, unless it is the viewer's own review in a
repository that the viewer may no longer read. What can be opened is listed, unless
it is a draft of someone else, or in a user's listing a review of someone else in a
private repository (`reviews_agree`).

Key definitions: `ReviewStore`, `listReviewsByUser`, `listReviewsHandler`,
`getReview`, `getReviewDiffBlobs`, `ReviewsAgree`.
Key theorems: `getReview_ok`, `blobs_getReview`, `mem_reviewsByUser`,
`reviews_agree`.
-/
import Gitdot.Server.Visibility

namespace Gitdot
namespace Visibility

open Lib Keyed Listings World
open Ci (Cursor)
open Auth (Time)

/-! ### Rows -/

/-- The row of a review as a listing sees it. -/
def reviewRow (createdAt : Uuid → Time) (repository : Repository) (review : Review) : ReviewRow :=
  ⟨review.id, repository.id, review.number, review.authorId, review.status, createdAt review.id⟩

/-- The rows of all reviews, repository by repository. -/
def reviewRows (createdAt : Uuid → Time) (w : World) : List ReviewRow :=
  w.repositories.rows.flatMap fun repository =>
    repository.reviews.rows.map (reviewRow createdAt repository)

/-- The store in which the listed rows are those of the repositories' reviews. -/
structure ReviewStore extends ListingStore where
  reviewedAt : Uuid → Time
  rows : reviews.rows.Perm (reviewRows reviewedAt world)

/-! ### The listings -/

section Lists

variable (s : ReviewStore)

/-- The condition of `list_reviews_by_user` on a review and its repository. -/
def reviewReadable (viewer : Option Uuid) (repository : Repository) (r : ReviewRow) : Truth :=
  (Truth.eq (some r.authorId) viewer).or
    ((Truth.ofBool (decide (r.status ≠ .draft))).and (Truth.ofBool repository.isPublic))

/-- What `list_reviews_by_user` asks of the repository when it is given an owner's
name or a repository's. -/
def narrowed (w : World) (owner repo : Option String) (repository : Repository) : Bool :=
  owner.all (fun owner => decide (repository.ownerId ∈ w.ownerIds owner)) &&
    repo.all fun repo => decide (repository.name = repo)

/-- The rows that `list_reviews_by_user` matches. -/
def reviewsByUser (userName : String) (viewer : Option Uuid) (status : Option ReviewStatus)
    (owner repo : Option String) : List ReviewRow :=
  s.reviews.rows.filter fun r =>
    ((s.world.users.get? r.authorId).any fun u => decide (u.name = userName)) &&
      ((s.world.repositories.get? r.repositoryId).any fun repository =>
        decide (reviewReadable viewer repository r).Holds && narrowed s.world owner repo repository) &&
          status.all fun status => decide (r.status = status)

/-- `list_reviews_by_user`, with a status that was read from its text. -/
def listReviewsByUser (userName : String) (viewer : Option Uuid) (status : Option ReviewStatus)
    (owner repo : Option String) (cursor : Option Cursor) (limit : ℕ) :
    List ReviewRow × Option Cursor :=
  page ReviewRow.cursor cursor limit (reviewsByUser s userName viewer status owner repo)

end Lists

/-! ### The handlers -/

def toAppError : ListError → AppError
  | .input field reason => .input field reason
  | .notFound entity id => .notFound entity id
  | .git e => .git e

section Handlers

/-- The `list_reviews` handler. -/
def listReviewsHandler (p : Payload) (s : ReviewStore) (viewer : Option Uuid) (owner repo : String)
    (cursor : Option String) (limit : Option ℕ) : Except AppError (Page ReviewRow) := do
  (s.world.verifyAuthorizedForRepository ⟨viewer, owner, repo, .read⟩).mapError .authorization
  (reviewsPage p s.toListingStore owner repo viewer limit cursor).mapError toAppError

variable (w : World)

/-- `get_review_by_id`. -/
def reviewById (owner repo : String) (number : ℤ) : Except ReviewError Review :=
  orNotFound (w.getReviewByNumber owner repo number) "review" s!"{owner}/{repo}/review/{number}"

/-- The `get_review` handler. -/
def getReview (viewer : Option Uuid) (owner repo : String) (number : ℤ) :
    Except AppError Review := do
  (w.verifyAuthorizedForRepository ⟨viewer, owner, repo, .read⟩).mapError .authorization
  (reviewById w owner repo number).mapError .review

/-- What the git client answers of two commits: the files that differ, and the blobs
of files. -/
structure BlobClient (Blob : Type) where
  getRepoCommitDiff : String → String → Option Sha → Sha → Except GitError (List CommitDiff)
  getRepoBlobs : String → String → List String → List Sha → Except GitError (List (Option Blob))

structure GetReviewDiffBlobsRequest where
  owner : String
  repo : String
  number : ℤ
  position : ℤ
  revision : Option ℤ
  compareTo : Option ℤ
  deriving DecidableEq

/-- `RepositoryBlobPairResponse`. -/
structure BlobPair (Blob : Type) where
  path : String
  old : Option Blob
  new : Option Blob

variable {Blob : Type} (client : BlobClient Blob)

/-- The revision that is asked for, or the latest. -/
def revisionOf (request : GetReviewDiffBlobsRequest) (diff : Diff) (place : String) :
    Except ReviewError Revision :=
  match request.revision with
  | some number =>
    orNotFound (diff.revisions.get? number) "revision" s!"{place}/revision/{number}"
  | none => orNotFound diff.latest? "revision" s!"{place} has no revisions"

/-- The commit that it is compared to: that of another revision, or its parent. -/
def comparedSha (request : GetReviewDiffBlobsRequest) (diff : Diff) (revision : Revision)
    (place : String) : Except ReviewError Sha :=
  match request.compareTo with
  | some number =>
    (orNotFound (diff.revisions.get? number) "revision" s!"{place}/revision/{number}").map
      Revision.commitHash
  | none => .ok revision.parentHash

/-- The blobs of the files that differ; the zero id has none. -/
def blobPairs (owner repo : String) (leftSha rightSha : Sha) :
    Except GitError (List (BlobPair Blob)) := do
  let leftRef := if leftSha = 0 then none else some leftSha
  let stats ← client.getRepoCommitDiff owner repo leftRef rightSha
  let paths := stats.map CommitDiff.path
  let left ← client.getRepoBlobs owner repo paths leftRef.toList
  let right ← client.getRepoBlobs owner repo paths [rightSha]
  return paths.mapIdx fun i path => ⟨path, left[i]?.join, right[i]?.join⟩

/-- `get_review_diff_blobs` of the review service. -/
def reviewDiffBlobs (request : GetReviewDiffBlobsRequest) :
    Except ReviewError (List (BlobPair Blob)) := do
  let review ← reviewById w request.owner request.repo request.number
  let place :=
    s!"{request.owner}/{request.repo}/review/{review.number}/diff/{request.position}"
  let diff ← orNotFound (review.diffs.get? request.position) "diff" place
  let revision ← revisionOf request diff place
  let leftSha ← comparedSha request diff revision place
  (blobPairs client request.owner request.repo leftSha revision.commitHash).mapError .gitError

/-- The `get_review_diff_blobs` handler. -/
def getReviewDiffBlobs (viewer : Option Uuid) (request : GetReviewDiffBlobsRequest) :
    Except AppError (List (BlobPair Blob)) := do
  (w.verifyAuthorizedForRepository ⟨viewer, request.owner, request.repo, .read⟩).mapError
    .authorization
  (reviewDiffBlobs w client request).mapError .review

end Handlers

/-! ### What they return -/

section Returned

variable {s : ReviewStore} {w : World} {viewer : Option Uuid} {owner repo : String} {number : ℤ}
  {review : Review} {row : ReviewRow}

theorem mapError_bind_eq_ok {ε ε' α β : Type} {x : Except ε α} {f : α → Except ε' β} {conv : ε → ε'}
    {b : β} (h : (x.mapError conv >>= f) = .ok b) : ∃ a, x = .ok a ∧ f a = .ok b := by
  obtain ⟨a, ha, hb⟩ := bind_eq_ok.mp h
  exact ⟨a, mapError_eq_ok.mp ha, hb⟩

theorem orNotFound_eq_ok {α : Type} {x : Option α} {entity id : String} {a : α} :
    orNotFound x entity id = .ok a ↔ x = some a := by
  cases x <;> simp [orNotFound]

/-- A review is returned where the check passes and the path has one of the
number. -/
theorem getReview_ok : getReview w viewer owner repo number = .ok review ↔
    w.verifyAuthorizedForRepository ⟨viewer, owner, repo, .read⟩ = .ok () ∧
      w.getReviewByNumber owner repo number = some review := by
  unfold getReview reviewById
  rw [bind_eq_ok]
  simp only [mapError_eq_ok, orNotFound_eq_ok]
  constructor
  · rintro ⟨⟨⟩, hok, hfound⟩
    exact ⟨hok, hfound⟩
  · rintro ⟨hok, hfound⟩
    exact ⟨(), hok, hfound⟩

/-- Blobs are returned only of a review that is. -/
theorem blobs_getReview {Blob : Type} {client : BlobClient Blob}
    {request : GetReviewDiffBlobsRequest} {blobs : List (BlobPair Blob)}
    (h : getReviewDiffBlobs w client viewer request = .ok blobs) :
    ∃ review, getReview w viewer request.owner request.repo request.number = .ok review := by
  obtain ⟨⟨⟩, hok, hblobs⟩ := mapError_bind_eq_ok h
  obtain ⟨review, hreview, -⟩ := bind_eq_ok.mp (mapError_eq_ok.mp hblobs)
  exact ⟨review, getReview_ok.mpr ⟨hok, orNotFound_eq_ok.mp hreview⟩⟩

/-- A row of the listings is that of a review. -/
theorem mem_rows : row ∈ s.reviews.rows ↔ ∃ repository ∈ s.world.repositories.rows,
    ∃ review ∈ repository.reviews.rows, row = reviewRow s.reviewedAt repository review := by
  rw [s.rows.mem_iff]
  simp [reviewRows, eq_comm]

/-- A review at a path has its number. -/
theorem exists_getReviewByNumber {repository : Repository}
    (hpath : repository ∈ w.repositoriesAt owner repo) (hreview : review ∈ repository.reviews.rows) :
    ∃ review', w.getReviewByNumber owner repo review.number = some review' ∧
      review'.number = review.number := by
  have hnumber : (repository.getReviewByNumber review.number).isSome = true :=
    List.find?_isSome.mpr ⟨review, hreview, by simp⟩
  have hwith : (w.repositoryWith owner repo review.number).isSome = true :=
    List.find?_isSome.mpr ⟨repository, hpath, hnumber⟩
  obtain ⟨repository', hrepository'⟩ := Option.isSome_iff_exists.mp hwith
  have hnumber' := List.find?_some hrepository'
  obtain ⟨review', hreview'⟩ := Option.isSome_iff_exists.mp hnumber'
  refine ⟨review', ?_, by simpa using List.find?_some hreview'⟩
  rw [World.getReviewByNumber, hrepository']
  exact hreview'

theorem holds_reviewReadable {repository : Repository} :
    (reviewReadable viewer repository row).Holds ↔
      viewer = some row.authorId ∨ row.status ≠ .draft ∧ repository.isPublic = true := by
  simp only [reviewReadable, Truth.holds_or, Truth.holds_and, Truth.holds_ofBool,
    Truth.holds_eq_some, decide_eq_true_eq]

theorem mem_reviewsByUser {userName : String} {status : Option ReviewStatus}
    {owner repo : Option String} : row ∈ reviewsByUser s userName viewer status owner repo ↔
    row ∈ s.reviews.rows ∧ (∃ u, s.world.users.get? row.authorId = some u ∧ u.name = userName) ∧
      (∃ repository, s.world.repositories.get? row.repositoryId = some repository ∧
        (viewer = some row.authorId ∨ row.status ≠ .draft ∧ repository.isPublic = true) ∧
          narrowed s.world owner repo repository = true) ∧
        ∀ st ∈ status, row.status = st := by
  simp only [reviewsByUser, List.mem_filter, Bool.and_eq_true, Option.any_eq_true,
    Option.all_eq_true, decide_eq_true_eq, holds_reviewReadable, and_assoc]
  rfl

end Returned

/-! ### Listed and opened -/

/-- How the listings and the item routes agree on a viewer. What `list_reviews` shows
can be opened, and so can what a user's listing shows of other authors wherever the
path leads to its repository; the author's own reviews are shown without a check.
What can be opened is in `list_reviews`, but for drafts of others, and in its
author's listing, but for drafts of others and what others have in private
repositories. -/
structure ReviewsAgree {Blob : Type} (p : Payload) (client : BlobClient Blob) (s : ReviewStore)
    (viewer : Option Uuid) : Prop where
  listed : ∀ owner repo cursor limit out,
    listReviewsHandler p s viewer owner repo cursor limit = .ok out → ∀ row ∈ out.data,
      ∃ review, getReview s.world viewer owner repo row.number = .ok review ∧
        review.number = row.number
  listedByUser : ∀ userName status ownerName repoName cursor limit,
    ∀ row ∈ (listReviewsByUser s userName viewer status ownerName repoName cursor limit).1,
      viewer ≠ some row.authorId → ∀ owner repo repository,
        s.world.getRepository owner repo = some repository → repository.id = row.repositoryId →
          ∃ review, getReview s.world viewer owner repo row.number = .ok review ∧
            review.number = row.number
  opened : ∀ owner repo number review, getReview s.world viewer owner repo number = .ok review →
    ∃ repository ∈ s.world.repositoriesAt owner repo, review ∈ repository.reviews.rows ∧
      ((review.status = .draft ∧ viewer ≠ some review.authorId) ∨
        ∀ limit, s.reviews.rows.length ≤ limit → reviewRow s.reviewedAt repository review ∈
          (listReviewsRows s.toListingStore owner repo viewer none limit).1)
  openedByUser : ∀ owner repo number review,
    getReview s.world viewer owner repo number = .ok review →
      ∃ repository ∈ s.world.repositoriesAt owner repo, review ∈ repository.reviews.rows ∧
        ∀ u, s.world.users.get? review.authorId = some u →
          ((review.status = .draft ∨ repository.isPublic = false) ∧
              viewer ≠ some review.authorId) ∨
            ∀ limit, s.reviews.rows.length ≤ limit → reviewRow s.reviewedAt repository review ∈
              (listReviewsByUser s u.name viewer none none none none limit).1
  blobs : ∀ request out, getReviewDiffBlobs s.world client viewer request = .ok out →
    ∃ review, getReview s.world viewer request.owner request.repo request.number = .ok review

section Agree

variable {s : ReviewStore} {viewer : Option Uuid} {owner repo : String} {review : Review}
  {row : ReviewRow} {repository : Repository}

/-- A listed row of a repository that the viewer may read can be opened. -/
theorem getReview_of_row
    (hok : s.world.verifyAuthorizedForRepository ⟨viewer, owner, repo, .read⟩ = .ok ())
    (hpath : repository ∈ s.world.repositoriesAt owner repo) (hrow : row ∈ s.reviews.rows)
    (hid : row.repositoryId = repository.id) :
    ∃ review, getReview s.world viewer owner repo row.number = .ok review ∧
      review.number = row.number := by
  obtain ⟨repository', hrepository', review, hreview, rfl⟩ := mem_rows.mp hrow
  have hrepository := (mem_repositoriesAt.mp hpath).1
  have hget : s.world.repositories.get? repository'.id = some repository' :=
    Table.get?_key hrepository'
  have hget' : s.world.repositories.get? repository.id = some repository :=
    Table.get?_key hrepository
  obtain rfl : repository' = repository :=
    Option.some.inj (hget.symm.trans ((congrArg _ hid).trans hget'))
  obtain ⟨review', hfound, hnumber⟩ := exists_getReviewByNumber hpath hreview
  exact ⟨review', getReview_ok.mpr ⟨hok, hfound⟩, hnumber⟩

/-- What can be opened is a review of a repository at the path. -/
theorem repository_of_getReview {number : ℤ}
    (h : getReview s.world viewer owner repo number = .ok review) :
    ∃ repository ∈ s.world.repositoriesAt owner repo, review ∈ repository.reviews.rows := by
  obtain ⟨repository, hwith, hnumber⟩ := getReviewByNumber_eq_some (getReview_ok.mp h).2
  exact ⟨repository, repositoryWith_mem hwith, Repository.mem_of_getReviewByNumber hnumber⟩

theorem reviewRow_mem (hpath : repository ∈ s.world.repositoriesAt owner repo)
    (hreview : review ∈ repository.reviews.rows) :
    reviewRow s.reviewedAt repository review ∈ s.reviews.rows :=
  mem_rows.mpr ⟨repository, (mem_repositoriesAt.mp hpath).1, review, hreview, rfl⟩

/-- A review at the path that is no draft of someone else is listed. -/
theorem listed_of_opened (hpath : repository ∈ s.world.repositoriesAt owner repo)
    (hreview : review ∈ repository.reviews.rows)
    (h : review.status ≠ .draft ∨ viewer = some review.authorId) {limit : ℕ}
    (hlimit : s.reviews.rows.length ≤ limit) : reviewRow s.reviewedAt repository review ∈
      (listReviewsRows s.toListingStore owner repo viewer none limit).1 := by
  refine (mem_page_of_le ((List.length_filter_le _ _).trans hlimit)).mpr (mem_reviewsAt.mpr ?_)
  refine ⟨reviewRow_mem hpath hreview, ⟨repository, hpath, rfl⟩, h.imp_right ?_⟩
  rintro rfl
  rfl

/-- In its author's listing are those that are published and public, and the
viewer's own. -/
theorem listedByUser_of_opened (hpath : repository ∈ s.world.repositoriesAt owner repo)
    (hreview : review ∈ repository.reviews.rows) {u : User}
    (hu : s.world.users.get? review.authorId = some u)
    (h : viewer = some review.authorId ∨ review.status ≠ .draft ∧ repository.isPublic = true)
    {limit : ℕ} (hlimit : s.reviews.rows.length ≤ limit) :
    reviewRow s.reviewedAt repository review ∈
      (listReviewsByUser s u.name viewer none none none none limit).1 := by
  have hget : s.world.repositories.get? repository.id = some repository :=
    Table.get?_key (mem_repositoriesAt.mp hpath).1
  refine (mem_page_of_le ((List.length_filter_le _ _).trans hlimit)).mpr
    (mem_reviewsByUser.mpr ⟨reviewRow_mem hpath hreview, ⟨u, hu, rfl⟩, ?_, nofun⟩)
  exact ⟨repository, hget, h, rfl⟩

/-- **Listed and opened.** -/
theorem reviews_agree {Blob : Type} (p : Payload) (client : BlobClient Blob) (s : ReviewStore)
    (viewer : Option Uuid) : ReviewsAgree p client s viewer where
  listed owner repo cursor limit out h row hrow := by
    obtain ⟨⟨⟩, hok, hout⟩ := mapError_bind_eq_ok h
    have hpages := pages_reviewsPage (p := p) (s := s.toListingStore) owner repo viewer limit cursor
    rw [mapError_eq_ok.mp hout] at hpages
    cases hcursor : decodeOption p cursor with
    | error e =>
      rw [hcursor] at hpages
      cases hpages
    | ok start =>
      rw [hcursor] at hpages
      obtain rfl := Except.ok.inj hpages
      obtain ⟨hmem, ⟨repository, hpath, hid⟩, -⟩ := mem_reviewsAt.mp (mem_of_mem_page hrow)
      exact getReview_of_row hok hpath hmem hid
  listedByUser userName status ownerName repoName cursor limit row hrow hother owner repo
      repository hfound hid := by
    obtain ⟨hmem, -, ⟨repository', hget, hreadable, -⟩, -⟩ :=
      mem_reviewsByUser.mp (mem_of_mem_page hrow)
    have hpath := getRepository_mem hfound
    have hget' : s.world.repositories.get? repository.id = some repository :=
      Table.get?_key (mem_repositoriesAt.mp hpath).1
    obtain rfl : repository = repository' :=
      Option.some.inj (hget'.symm.trans ((congrArg _ hid).trans hget))
    obtain ⟨-, hpublic⟩ := hreadable.resolve_left hother
    have hvisible : Ci.visibleTo s.world viewer repository = true := by
      simp only [Ci.visibleTo, hpublic, Bool.true_or]
    exact getReview_of_row (verifyAuthorizedForRepository_read.mpr ⟨repository, hfound, hvisible⟩)
      hpath hmem hid.symm
  opened owner repo number review h := by
    obtain ⟨repository, hpath, hreview⟩ := repository_of_getReview h
    refine ⟨repository, hpath, hreview, ?_⟩
    by_cases hhidden : review.status = .draft ∧ viewer ≠ some review.authorId
    · exact .inl hhidden
    · refine .inr fun limit hlimit => listed_of_opened hpath hreview ?_ hlimit
      by_cases hdraft : review.status = .draft
      · exact .inr (not_not.mp fun hne => hhidden ⟨hdraft, hne⟩)
      · exact .inl hdraft
  openedByUser owner repo number review h := by
    obtain ⟨repository, hpath, hreview⟩ := repository_of_getReview h
    refine ⟨repository, hpath, hreview, fun u hu => ?_⟩
    by_cases hown : viewer = some review.authorId
    · exact .inr fun limit hlimit =>
        listedByUser_of_opened hpath hreview hu (.inl hown) hlimit
    · by_cases hshown : review.status ≠ .draft ∧ repository.isPublic = true
      · exact .inr fun limit hlimit =>
          listedByUser_of_opened hpath hreview hu (.inr hshown) hlimit
      · refine .inl ⟨?_, hown⟩
        by_cases hdraft : review.status = .draft
        · exact .inl hdraft
        · exact .inr (Bool.eq_false_iff.mpr fun hpublic => hshown ⟨hdraft, hpublic⟩)
  blobs request out h := blobs_getReview h

end Agree

/-! ### Drafts, and reviews of one's own

Alice has a draft in her public repository, and Bob a review in a private one of an
organization that he has left. -/

def aliceDraft : Review := ⟨21, 1, 1, "", "", "main", .draft, .empty, []⟩

def bobReview : Review := ⟨22, 1, 2, "", "", "main", .open, .empty, []⟩

def leftStore : ReviewStore where
  world :=
    { users := (Table.empty.upsert ⟨1, "alice"⟩).upsert ⟨2, "bob"⟩
      organizations := Table.empty.upsert ⟨3, "org"⟩
      members := []
      repositories := (Table.empty.upsert
        ⟨5, "site", 1, .user, .publicRepo, false, Table.empty.upsert aliceDraft⟩).upsert
        ⟨6, "vault", 3, .organization, .privateRepo, false, Table.empty.upsert bobReview⟩
      comments := .empty
      verdicts := []
      disk := fun _ _ => none }
  reviews := (Table.empty.upsert ⟨21, 5, 1, 1, .draft, tied⟩).upsert ⟨22, 6, 1, 2, .open, tied⟩
  commits := .empty
  reviewedAt _ := tied
  rows := by decide +kernel

/-- Bob's listing shows him his review and he cannot open it; anyone can open
Alice's draft, which is not listed. -/
theorem not_reviews_agree :
    (¬ ∀ (s : ReviewStore) (viewer : Option Uuid) (userName : String) (limit : ℕ),
      ∀ row ∈ (listReviewsByUser s userName viewer none none none none limit).1,
        ∀ owner repo repository, s.world.getRepository owner repo = some repository →
          repository.id = row.repositoryId →
            (getReview s.world viewer owner repo row.number).isOk = true) ∧
      ¬ ∀ (s : ReviewStore) (viewer : Option Uuid) (owner repo : String) (number : ℤ),
        (getReview s.world viewer owner repo number).isOk = true →
          ∀ limit, s.reviews.rows.length ≤ limit →
            ∃ row ∈ (listReviewsRows s.toListingStore owner repo viewer none limit).1,
              row.number = number := by
  constructor
  · intro h
    have hopen := h leftStore (some 2) "bob" 10 ⟨22, 6, 1, 2, .open, tied⟩ (by decide +kernel)
      "org" "vault" ⟨6, "vault", 3, .organization, .privateRepo, false, Table.empty.upsert bobReview⟩
      (by decide +kernel) rfl
    exact absurd hopen (by decide +kernel)
  · intro h
    have hlisted := h leftStore none "alice" "site" 1 (by decide +kernel) 10 (by decide +kernel)
    exact absurd hlisted (by decide +kernel)

end Visibility
end Gitdot
