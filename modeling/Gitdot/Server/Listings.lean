/-
# Listings, and the cursors between their pages

Reviews, commits and the repositories that a user has contributed to are listed
in descending order of a timestamp and an id, at most `limit` at a time. A page
that is not the last ends in a cursor, the timestamp and the id of its last row,
which a client gets and passes back as text: its JSON in base64. The JSON is
written and read by `serde_json`, which is not part of the repository; what a
listing relies on is that it reads what it has written (`Payload.Reads`).

Following the cursors from the first page on, whatever the limit, ends without a
cursor and gives the rows that the viewer may see, each once and in the
listing's order (`cursors_enumerate`). Timestamps are in microseconds, as the
database stores them.

The names in a request have been parsed, and what the clock says is given with
it: pages of one listing have the same filters.

Key definitions: `Payload`, `encode`, `decode`, `reviewsPage`, `commitsPage`,
`contributedPage`, `enumerate`, `Enumerates`.
Key theorems: `enumerates_paged`, `cursors_enumerate`.
-/
import Gitdot.Ci.Runners
import Gitdot.Lib.Base64

namespace Gitdot
namespace Listings

open Lib Keyed
open Ci (Cursor)
open Auth (Time)

/-! ### Rows -/

/-- A row of `core.reviews`, as a listing sees it. -/
structure ReviewRow where
  id : Uuid
  repositoryId : Uuid
  number : ℤ
  authorId : Uuid
  status : ReviewStatus
  createdAt : Time
  deriving DecidableEq

instance : Keyed ReviewRow Uuid := ⟨ReviewRow.id⟩

/-- `CommitDiff`: the lines that a commit adds to a file and removes from it. -/
structure CommitDiff where
  path : String
  linesAdded : ℤ
  linesRemoved : ℤ
  deriving DecidableEq

/-- A row of `core.commits`. -/
structure CommitRow where
  id : Uuid
  repoId : Uuid
  authorId : Option Uuid
  gitAuthorName : String
  gitAuthorEmail : String
  refName : String
  sha : Sha
  parentSha : Sha
  message : String
  createdAt : Time
  reviewNumber : Option ℤ
  diffPosition : Option ℤ
  diffs : List CommitDiff
  deriving DecidableEq

instance : Keyed CommitRow Uuid := ⟨CommitRow.id⟩

/-- A repository with the commits of one user. -/
structure ContributedRepo where
  repository : Repository
  commitCount : ℕ
  lastCommitAt : Time
  deriving DecidableEq

/-- The store, with the rows that are listed. -/
structure ListingStore where
  world : World
  reviews : Table ReviewRow
  commits : Table CommitRow

def ReviewRow.cursor (r : ReviewRow) : Cursor := ⟨r.createdAt, r.id⟩

def CommitRow.cursor (c : CommitRow) : Cursor := ⟨c.createdAt, c.id⟩

def ContributedRepo.cursor (r : ContributedRepo) : Cursor := ⟨r.lastCommitAt, r.repository.id⟩

/-! ### Cursors as text -/

/-- `serde_json` of a cursor: `to_vec` and `from_slice`. -/
structure Payload where
  toVec : Cursor → List UInt8
  fromSlice : List UInt8 → Option Cursor

/-- The errors of the listings. -/
inductive ListError where
  | input (field reason : String)
  | notFound (entity id : String)
  | git (e : GitError)
  deriving DecidableEq

section Text

variable (p : Payload)

/-- `cursor::encode`. -/
def encode (c : Cursor) : String := Base64.encode (p.toVec c)

/-- `cursor::decode`. -/
def decode (text : String) : Except ListError Cursor :=
  match Base64.decode text with
  | none => .error (.input "cursor" "invalid cursor encoding")
  | some bytes =>
    match p.fromSlice bytes with
    | none => .error (.input "cursor" "invalid cursor payload")
    | some c => .ok c

/-- `cursor.map(cursor::decode).transpose()`. -/
def decodeOption : Option String → Except ListError (Option Cursor)
  | none => .ok none
  | some text => (decode p text).map some

/-- What was written for the cursor is read as the cursor. -/
def Payload.Reads (c : Cursor) : Prop := p.fromSlice (p.toVec c) = some c

instance (c : Cursor) : Decidable (p.Reads c) := inferInstanceAs (Decidable (_ = _))

theorem decode_encode {c : Cursor} (h : p.Reads c) : decode p (encode p c) = .ok c := by
  unfold decode encode
  rw [Base64.decode_encode]
  dsimp only
  rw [h]

end Text

/-! ### Requests -/

/-- What the clock says: `Utc::now()`, and the start of the twelve months before. -/
structure Clock where
  now : Time
  contributionStart : Time

/-- `DateTime::UNIX_EPOCH`, from the first day that the database can store. -/
def unixEpoch : Time := 2440588 * 86400 * 10 ^ 6

/-- `limit.unwrap_or(DEFAULT_PER_PAGE_LIMIT).clamp(1, MAX_PER_PAGE_LIMIT)`. -/
def clampLimit (limit : Option ℕ) : ℕ :=
  min (max (limit.getD Ci.defaultPerPageLimit) 1) Ci.maxPerPageLimit

theorem one_le_clampLimit (limit : Option ℕ) : 1 ≤ clampLimit limit := by
  unfold clampLimit Ci.maxPerPageLimit
  omega

structure ListReviewsRequest where
  owner : String
  repo : String
  viewerId : Option Uuid
  cursor : Option Cursor
  limit : ℕ

def ListReviewsRequest.new (p : Payload) (owner repo : String) (viewerId : Option Uuid)
    (cursor : Option String) (limit : Option ℕ) : Except ListError ListReviewsRequest := do
  let cursor ← decodeOption p cursor
  return ⟨owner, repo, viewerId, cursor, clampLimit limit⟩

structure ListRepositoryCommitsRequest where
  owner : String
  repo : String
  refName : String
  start : Time
  stop : Time
  cursor : Option Cursor
  limit : ℕ

def ListRepositoryCommitsRequest.new (p : Payload) (clock : Clock) (owner repo refName : String)
    (start stop : Option Time) (cursor : Option String) (limit : Option ℕ) :
    Except ListError ListRepositoryCommitsRequest :=
  if stop.isSome ∧ start.isNone then
    .error (.input "date range" "`to` requires `from` to be set")
  else do
    let cursor ← decodeOption p cursor
    return ⟨owner, repo, refName, start.getD unixEpoch, stop.getD clock.now, cursor,
      clampLimit limit⟩

structure ListUserContributedRepositoriesRequest where
  userName : String
  viewerId : Option Uuid
  start : Time
  cursor : Option Cursor
  limit : ℕ

def ListUserContributedRepositoriesRequest.new (p : Payload) (clock : Clock) (userName : String)
    (viewerId : Option Uuid) (start : Option Time) (cursor : Option String) (limit : Option ℕ) :
    Except ListError ListUserContributedRepositoriesRequest := do
  let cursor ← decodeOption p cursor
  return ⟨userName, viewerId, start.getD clock.contributionStart, cursor, clampLimit limit⟩

/-! ### The queries -/

section Queries

variable (s : ListingStore)

/-- The reviews that `list_reviews` matches, an anonymous viewer having the nil
id. -/
def reviewsAt (owner repo : String) (viewerId : Option Uuid) : List ReviewRow :=
  s.reviews.rows.filter fun r =>
    (s.world.repositoriesAt owner repo).any (fun repository =>
      decide (r.repositoryId = repository.id)) &&
        decide (r.status ≠ .draft ∨ r.authorId = viewerId.getD 0)

/-- `list_reviews`. -/
def listReviewsRows (owner repo : String) (viewerId : Option Uuid) (cursor : Option Cursor)
    (limit : ℕ) : List ReviewRow × Option Cursor :=
  page ReviewRow.cursor cursor limit (reviewsAt s owner repo viewerId)

/-- The commits that `list_by_repository` matches. -/
def commitsOn (repoId : Uuid) (refName : String) (start stop : Time) : List CommitRow :=
  s.commits.rows.filter fun c =>
    decide (c.repoId = repoId ∧ c.refName = refName ∧ start ≤ c.createdAt ∧ c.createdAt ≤ stop)

/-- `list_by_repository`. -/
def listByRepository (repoId : Uuid) (refName : String) (start stop : Time) (cursor : Option Cursor)
    (limit : ℕ) : List CommitRow × Option Cursor :=
  page CommitRow.cursor cursor limit (commitsOn s repoId refName start stop)

/-- The user's commits in a repository since a time. -/
def contributions (userId : Uuid) (since : Time) (repoId : Uuid) : List CommitRow :=
  s.commits.rows.filter fun c =>
    decide (c.authorId = some userId ∧ since ≤ c.createdAt ∧ c.repoId = repoId)

/-- The repositories that the user has commits in: the groups of `agg`. -/
def contributedIds (userId : Uuid) (since : Time) : List Uuid :=
  ((s.commits.rows.filter fun c => decide (c.authorId = some userId ∧ since ≤ c.createdAt)).map
    CommitRow.repoId).dedup

/-- The repositories that `list_contributed_repositories` matches. -/
def contributedBy (userId : Uuid) (viewerId : Option Uuid) (since : Time) : List ContributedRepo :=
  (contributedIds s userId since).filterMap fun id =>
    ((s.world.repositories.get? id).filter fun r => Ci.visibleTo s.world viewerId r).map fun r =>
      ⟨r, (contributions s userId since id).length,
        (((contributions s userId since id).map CommitRow.createdAt).max?).getD 0⟩

/-- `list_contributed_repositories`. -/
def listContributedRepositories (userId : Uuid) (viewerId : Option Uuid) (since : Time)
    (cursor : Option Cursor) (limit : ℕ) : List ContributedRepo × Option Cursor :=
  page ContributedRepo.cursor cursor limit (contributedBy s userId viewerId since)

end Queries

/-! ### The services -/

/-- `Page`. -/
structure Page (α : Type) where
  data : List α
  nextCursor : Option String

/-- The page of a query, its cursor encoded. -/
def toPage {α : Type} (p : Payload) (out : List α × Option Cursor) : Page α :=
  ⟨out.1, out.2.map (encode p)⟩

section Services

variable (p : Payload) (s : ListingStore)

/-- `list_reviews` of the review service. -/
def listReviews (request : ListReviewsRequest) : Except ListError (Page ReviewRow) :=
  .ok (toPage p (listReviewsRows s request.owner request.repo request.viewerId request.cursor
    request.limit))

/-- The ref that the commits are listed of. `defaultRef` is what the git client
answers for `HEAD`. -/
def resolveRefName (defaultRef : String → String → Except GitError String) (owner repo refName : String) :
    Except ListError String :=
  if refName = "HEAD" then (defaultRef owner repo).mapError .git
  else if refName.startsWith "refs/" = false then .ok s!"refs/heads/{refName}"
  else .ok refName

/-- `list_repository_commits`. -/
def listRepositoryCommits (defaultRef : String → String → Except GitError String)
    (request : ListRepositoryCommitsRequest) : Except ListError (Page CommitRow) := do
  let repository ← okOr (s.world.getRepository request.owner request.repo)
    (.notFound "repository" s!"{request.owner}/{request.repo}")
  let refName ← resolveRefName defaultRef request.owner request.repo request.refName
  return toPage p (listByRepository s repository.id refName request.start request.stop request.cursor
    request.limit)

/-- `list_user_contributed_repositories`. -/
def listUserContributedRepositories (request : ListUserContributedRepositoriesRequest) :
    Except ListError (Page ContributedRepo) := do
  let user ← okOr (s.world.getUser request.userName) (.notFound "user" request.userName)
  return toPage p (listContributedRepositories s user.id request.viewerId request.start request.cursor
    request.limit)

/-! ### The endpoints, as functions of the cursor -/

/-- A page of the reviews of a repository. -/
def reviewsPage (owner repo : String) (viewerId : Option Uuid) (limit : Option ℕ)
    (cursor : Option String) : Except ListError (Page ReviewRow) := do
  let request ← ListReviewsRequest.new p owner repo viewerId cursor limit
  listReviews p s request

/-- A page of the commits of a ref. -/
def commitsPage (defaultRef : String → String → Except GitError String) (clock : Clock)
    (owner repo refName : String) (start stop : Option Time) (limit : Option ℕ)
    (cursor : Option String) : Except ListError (Page CommitRow) := do
  let request ← ListRepositoryCommitsRequest.new p clock owner repo refName start stop cursor limit
  listRepositoryCommits p s defaultRef request

/-- A page of the repositories that a user has contributed to. -/
def contributedPage (clock : Clock) (userName : String) (viewerId : Option Uuid)
    (start : Option Time) (limit : Option ℕ) (cursor : Option String) :
    Except ListError (Page ContributedRepo) := do
  let request ← ListUserContributedRepositoriesRequest.new p clock userName viewerId start cursor limit
  listUserContributedRepositories p s request

end Services

/-! ### From page to page -/

/-- At most `n` requests, each with the cursor that the one before has returned:
what was listed, once a page has come without a cursor. -/
def enumerate {α : Type} (next : Option String → Except ListError (Page α)) :
    ℕ → Option String → Option (List α)
  | 0, _ => none
  | n + 1, cursor =>
    match next cursor with
    | .ok ⟨data, none⟩ => some data
    | .ok ⟨data, some text⟩ => (enumerate next n (some text)).map fun rest => data ++ rest
    | .error _ => none

/-- Following the cursors ends, and lists exactly the rows that are `Visible`,
each once, in descending order of their cursors. -/
def Enumerates {α : Type} (next : Option String → Except ListError (Page α)) (key : α → Cursor)
    (Visible : α → Prop) : Prop :=
  ∃ rows, (∀ n, rows.length < n → enumerate next n none = some rows) ∧
    (∀ a, a ∈ rows ↔ Visible a) ∧ rows.Nodup ∧ rows.Pairwise fun a b => key b < key a

section Paged

variable {α : Type} {p : Payload} {key : α → Cursor} {limit : ℕ} {rows : List α}
  {next : Option String → Except ListError (Page α)}

/-- The endpoint decodes its cursor, and answers with the page of some rows. -/
def Pages (p : Payload) (key : α → Cursor) (limit : ℕ) (rows : List α)
    (next : Option String → Except ListError (Page α)) : Prop :=
  ∀ text, next text = (decodeOption p text).map fun cursor => toPage p (page key cursor limit rows)

/-- A cursor that goes out as text comes back as it was. -/
theorem enumerate_eq (hnext : Pages p key limit rows next) (hlimit : 1 ≤ limit)
    (hn : (rows.map key).Nodup) (hreads : ∀ a ∈ rows, p.Reads (key a)) :
    ∀ (n : ℕ) (text : Option String) (cursor : Option Cursor), decodeOption p text = .ok cursor →
      enumerate next n text = followPages (fun c => page key c limit rows) n cursor
  | 0, _, _, _ => rfl
  | n + 1, text, cursor, htext => by
    unfold enumerate followPages
    rw [hnext text, htext]
    rcases page_split cursor hn hlimit with hpage | ⟨data, k, hpage, hsplit⟩
    · simp only [Except.map, toPage, hpage, Option.map_none]
    · obtain ⟨a, ha, rfl⟩ := hsplit.cursorOf
      have hback : decodeOption p (some (encode p (key a))) = .ok (some (key a)) := by
        change (decode p (encode p (key a))).map some = _
        rw [decode_encode p (hreads a ha)]
        rfl
      simp only [Except.map, toPage, hpage, Option.map_some]
      rw [enumerate_eq hnext hlimit hn hreads n _ _ hback]

/-- **Following cursors.** -/
theorem enumerates_paged (hnext : Pages p key limit rows next) (hlimit : 1 ≤ limit)
    (hn : (rows.map key).Nodup) (hreads : ∀ a ∈ rows, p.Reads (key a)) :
    Enumerates next key (fun a => a ∈ rows) := by
  have hall : below key none rows = rows := List.filter_eq_self.mpr fun _ _ => rfl
  have hperm := descending_perm key rows
  have hstrict := pairwise_descending hn
  refine ⟨descending key rows, fun n hlen => ?_, fun a => hperm.mem_iff, ?_, hstrict⟩
  · rw [hperm.length_eq] at hlen
    rw [enumerate_eq hnext hlimit hn hreads n none none rfl,
      follow_page hn hlimit (by rw [hall]; exact hlen), hall]
  · exact hstrict.imp fun hab heq => absurd (heq ▸ hab) (lt_irrefl _)

theorem Enumerates.congr {V W : α → Prop} (h : Enumerates next key V) (hVW : ∀ a, V a ↔ W a) :
    Enumerates next key W := by
  obtain ⟨rows, hall, hmem, hrest⟩ := h
  exact ⟨rows, hall, fun a => (hmem a).trans (hVW a), hrest⟩

end Paged

/-! ### What is listed -/

section Visible

variable {s : ListingStore} {p : Payload} {clock : Clock}

/-- A review at the path that the viewer may see: a draft is its author's. -/
def VisibleReview (s : ListingStore) (owner repo : String) (viewerId : Option Uuid) (r : ReviewRow) :
    Prop :=
  r ∈ s.reviews.rows ∧
    (∃ repository ∈ s.world.repositoriesAt owner repo, r.repositoryId = repository.id) ∧
      (r.status ≠ .draft ∨ r.authorId = viewerId.getD 0)

/-- A commit of the repository under the ref, in the window. -/
def VisibleCommit (s : ListingStore) (repoId : Uuid) (refName : String) (start stop : Time)
    (c : CommitRow) : Prop :=
  c ∈ s.commits.rows ∧ c.repoId = repoId ∧ c.refName = refName ∧ start ≤ c.createdAt ∧
    c.createdAt ≤ stop

/-- A repository that the viewer may see, with the number of the user's commits
in it and the time of the latest of them. -/
def VisibleContributed (s : ListingStore) (userId : Uuid) (viewerId : Option Uuid) (since : Time)
    (r : ContributedRepo) : Prop :=
  s.world.repositories.get? r.repository.id = some r.repository ∧
    Ci.visibleTo s.world viewerId r.repository = true ∧
      r.commitCount = (contributions s userId since r.repository.id).length ∧
        (∃ c ∈ contributions s userId since r.repository.id, c.createdAt = r.lastCommitAt) ∧
          ∀ c ∈ contributions s userId since r.repository.id, c.createdAt ≤ r.lastCommitAt

theorem mem_reviewsAt {owner repo : String} {viewerId : Option Uuid} {r : ReviewRow} :
    r ∈ reviewsAt s owner repo viewerId ↔ VisibleReview s owner repo viewerId r := by
  simp [reviewsAt, VisibleReview]

theorem mem_commitsOn {repoId : Uuid} {refName : String} {start stop : Time} {c : CommitRow} :
    c ∈ commitsOn s repoId refName start stop ↔ VisibleCommit s repoId refName start stop c := by
  simp [commitsOn, VisibleCommit]

theorem mem_contributions {userId : Uuid} {since : Time} {repoId : Uuid} {c : CommitRow} :
    c ∈ contributions s userId since repoId ↔
      c ∈ s.commits.rows ∧ c.authorId = some userId ∧ since ≤ c.createdAt ∧ c.repoId = repoId := by
  simp [contributions]

theorem mem_contributedIds {userId : Uuid} {since : Time} {id : Uuid} :
    id ∈ contributedIds s userId since ↔ contributions s userId since id ≠ [] := by
  simp only [contributedIds, List.mem_dedup, List.mem_map, List.mem_filter, decide_eq_true_eq]
  constructor
  · rintro ⟨c, ⟨hc, hauthor, hsince⟩, hid⟩
    exact List.ne_nil_of_mem (mem_contributions.mpr ⟨hc, hauthor, hsince, hid⟩)
  · intro hne
    obtain ⟨c, hmem⟩ := List.exists_mem_of_ne_nil _ hne
    obtain ⟨hc, hauthor, hsince, hid⟩ := mem_contributions.mp hmem
    exact ⟨c, ⟨hc, hauthor, hsince⟩, hid⟩

theorem latest_iff {rows : List CommitRow} (hne : rows ≠ []) {t : Time} :
    ((rows.map CommitRow.createdAt).max?).getD 0 = t ↔
      (∃ c ∈ rows, c.createdAt = t) ∧ ∀ c ∈ rows, c.createdAt ≤ t := by
  have hsome : ((rows.map CommitRow.createdAt).max?).isSome = true := by
    cases rows with
    | nil => exact absurd rfl hne
    | cons c rows => simp
  obtain ⟨m, hm⟩ := Option.isSome_iff_exists.mp hsome
  have hiff : (rows.map CommitRow.createdAt).max? = some t ↔ _ := List.max?_eq_some_iff
  rw [hm, Option.getD_some]
  rw [hm, Option.some.injEq] at hiff
  rw [hiff]
  simp

theorem mem_contributedBy {userId : Uuid} {viewerId : Option Uuid} {since : Time}
    {r : ContributedRepo} :
    r ∈ contributedBy s userId viewerId since ↔ VisibleContributed s userId viewerId since r := by
  obtain ⟨repository, commitCount, lastCommitAt⟩ := r
  simp only [contributedBy, List.mem_filterMap, Option.map_eq_some_iff, Option.filter_eq_some_iff,
    VisibleContributed, ContributedRepo.mk.injEq]
  constructor
  · rintro ⟨id, hid, r, ⟨hr, hvisible⟩, rfl, rfl, hlast⟩
    have hrid : r.id = id := Table.key_of_get? hr
    subst hrid
    obtain ⟨hlatest, hle⟩ := (latest_iff (mem_contributedIds.mp hid)).mp hlast
    exact ⟨hr, hvisible, rfl, hlatest, hle⟩
  · rintro ⟨hr, hvisible, rfl, ⟨c, hc, hlatest⟩, hle⟩
    have hne : contributions s userId since repository.id ≠ [] := List.ne_nil_of_mem hc
    exact ⟨repository.id, mem_contributedIds.mpr hne, repository, ⟨hr, hvisible⟩, rfl, rfl,
      (latest_iff hne).mpr ⟨⟨c, hc, hlatest⟩, hle⟩⟩

/-! ### Cursors are distinct -/

theorem nodup_cursors {α : Type} {key : α → Cursor} {rows : List α} (id : α → Uuid)
    (hid : ∀ a, (key a).id = id a) (hn : (rows.map id).Nodup) : (rows.map key).Nodup := by
  refine List.Nodup.of_map Cursor.id ?_
  rw [List.map_map]
  have hmap : rows.map (Cursor.id ∘ key) = rows.map id := List.map_congr_left fun a _ => hid a
  rw [hmap]
  exact hn

theorem nodup_reviewsAt (owner repo : String) (viewerId : Option Uuid) :
    ((reviewsAt s owner repo viewerId).map ReviewRow.cursor).Nodup :=
  nodup_cursors ReviewRow.id (fun _ => rfl)
    (s.reviews.nodup_keys.sublist (List.filter_sublist.map _))

theorem nodup_commitsOn (repoId : Uuid) (refName : String) (start stop : Time) :
    ((commitsOn s repoId refName start stop).map CommitRow.cursor).Nodup :=
  nodup_cursors CommitRow.id (fun _ => rfl)
    (s.commits.nodup_keys.sublist (List.filter_sublist.map _))

theorem nodup_contributedBy (userId : Uuid) (viewerId : Option Uuid) (since : Time) :
    ((contributedBy s userId viewerId since).map ContributedRepo.cursor).Nodup := by
  refine nodup_cursors (fun r => r.repository.id) (fun _ => rfl) ?_
  unfold contributedBy
  rw [List.map_filterMap]
  refine List.Nodup.filterMap ?_ (List.nodup_dedup _)
  intro a a' b hb hb'
  simp only [Option.mem_def, Option.map_eq_some_iff, Option.filter_eq_some_iff] at hb hb'
  obtain ⟨_, ⟨r, ⟨hr, -⟩, rfl⟩, rfl⟩ := hb
  obtain ⟨_, ⟨r', ⟨hr', -⟩, rfl⟩, hid⟩ := hb'
  have ha : r.id = a := Table.key_of_get? hr
  have ha' : r'.id = a' := Table.key_of_get? hr'
  rw [← ha, ← ha', hid]

end Visible

/-! ### The three listings -/

/-- The JSON of every cursor that a listing of the store can give out is read as
that cursor. -/
structure ReadsBack (p : Payload) (s : ListingStore) : Prop where
  reviews : ∀ r ∈ s.reviews.rows, p.Reads r.cursor
  commits : ∀ c ∈ s.commits.rows, p.Reads c.cursor
  contributed : ∀ c ∈ s.commits.rows, ∀ r ∈ s.world.repositories.rows, p.Reads ⟨c.createdAt, r.id⟩

section Enumerate

variable {p : Payload} {s : ListingStore}

theorem pages_reviewsPage (owner repo : String) (viewerId : Option Uuid) (limit : Option ℕ) :
    Pages p ReviewRow.cursor (clampLimit limit) (reviewsAt s owner repo viewerId)
      (reviewsPage p s owner repo viewerId limit) := by
  intro text
  unfold reviewsPage ListReviewsRequest.new
  cases decodeOption p text <;> rfl

theorem pages_commitsPage {defaultRef : String → String → Except GitError String} {clock : Clock}
    {owner repo refName ref : String} {start stop : Option Time} {repository : Repository}
    (limit : Option ℕ) (hwindow : stop.isSome → start.isSome)
    (hrepository : s.world.getRepository owner repo = some repository)
    (href : resolveRefName defaultRef owner repo refName = .ok ref) :
    Pages p CommitRow.cursor (clampLimit limit)
      (commitsOn s repository.id ref (start.getD unixEpoch) (stop.getD clock.now))
      (commitsPage p s defaultRef clock owner repo refName start stop limit) := by
  intro text
  have hnot : ¬ (stop.isSome = true ∧ start.isNone = true) := by
    rintro ⟨hstop, hstart⟩
    have hsome := hwindow hstop
    rw [Option.isNone_iff_eq_none.mp hstart] at hsome
    cases hsome
  unfold commitsPage ListRepositoryCommitsRequest.new listRepositoryCommits
  rw [if_neg hnot]
  cases decodeOption p text with
  | error e => rfl
  | ok cursor =>
    change (okOr (s.world.getRepository owner repo) _ >>= fun repository =>
      resolveRefName defaultRef owner repo refName >>= _) = _
    rw [hrepository, href]
    rfl

theorem pages_contributedPage {clock : Clock} {userName : String} {user : User}
    (viewerId : Option Uuid) (start : Option Time) (limit : Option ℕ)
    (huser : s.world.getUser userName = some user) :
    Pages p ContributedRepo.cursor (clampLimit limit)
      (contributedBy s user.id viewerId (start.getD clock.contributionStart))
      (contributedPage p s clock userName viewerId start limit) := by
  intro text
  unfold contributedPage ListUserContributedRepositoriesRequest.new listUserContributedRepositories
  cases decodeOption p text with
  | error e => rfl
  | ok cursor =>
    change (okOr (s.world.getUser userName) _ >>= _) = _
    rw [huser]
    rfl

theorem reads_contributed (h : ReadsBack p s) {userId : Uuid} {viewerId : Option Uuid}
    {since : Time} {r : ContributedRepo} (hr : r ∈ contributedBy s userId viewerId since) :
    p.Reads r.cursor := by
  obtain ⟨hget, -, -, ⟨c, hc, hlatest⟩, -⟩ := mem_contributedBy.mp hr
  have hreads := h.contributed c (mem_contributions.mp hc).1 r.repository
    (Table.mem_rows_of_get? hget)
  rwa [hlatest] at hreads

/-- **Following cursors enumerates everything once.** For every store, every
viewer, filters and limit: from no cursor on, the reviews of a repository, the
commits of a ref and the repositories that a user has contributed to are listed
to the end, exactly those visible, each once, the latest first. -/
theorem cursors_enumerate (p : Payload) (s : ListingStore) (hreads : ReadsBack p s)
    (clock : Clock) (defaultRef : String → String → Except GitError String) (limit : Option ℕ) :
    (∀ owner repo viewerId,
      Enumerates (reviewsPage p s owner repo viewerId limit) ReviewRow.cursor
        (VisibleReview s owner repo viewerId)) ∧
    (∀ owner repo refName repository ref start stop,
      (Option.isSome stop = true → Option.isSome start = true) →
      s.world.getRepository owner repo = some repository →
      resolveRefName defaultRef owner repo refName = .ok ref →
      Enumerates (commitsPage p s defaultRef clock owner repo refName start stop limit)
        CommitRow.cursor (VisibleCommit s repository.id ref (start.getD unixEpoch)
          (stop.getD clock.now))) ∧
    (∀ userName user viewerId start, s.world.getUser userName = some user →
      Enumerates (contributedPage p s clock userName viewerId start limit) ContributedRepo.cursor
        (VisibleContributed s user.id viewerId (start.getD clock.contributionStart))) := by
  have hlimit := one_le_clampLimit limit
  refine ⟨?_, ?_, ?_⟩
  · intro owner repo viewerId
    refine (enumerates_paged (pages_reviewsPage owner repo viewerId limit) hlimit
      (nodup_reviewsAt owner repo viewerId) ?_).congr fun _ => mem_reviewsAt
    exact fun r hr => hreads.reviews r (mem_reviewsAt.mp hr).1
  · intro owner repo refName repository ref start stop hwindow hrepository href
    refine (enumerates_paged (pages_commitsPage limit hwindow hrepository href) hlimit
      (nodup_commitsOn _ _ _ _) ?_).congr fun _ => mem_commitsOn
    exact fun c hc => hreads.commits c (mem_commitsOn.mp hc).1
  · intro userName user viewerId start huser
    refine (enumerates_paged (pages_contributedPage viewerId start limit huser) hlimit
      (nodup_contributedBy _ _ _) ?_).congr fun _ => mem_contributedBy
    exact fun r hr => reads_contributed hreads hr

end Enumerate

/-! ### Rows of one time

Two open reviews, a draft and a commit in `alice/site`, all of one microsecond. -/

def tied : Time := unixEpoch + 5

def tiedStore : ListingStore where
  world :=
    { users := Table.empty.upsert ⟨1, "alice"⟩
      organizations := .empty
      members := []
      repositories := Table.empty.upsert ⟨5, "site", 1, .user, .publicRepo, false, .empty⟩
      comments := .empty
      verdicts := []
      disk := fun _ _ => none }
  reviews := ((Table.empty.upsert ⟨21, 5, 1, 1, .open, tied⟩).upsert
    ⟨22, 5, 2, 1, .open, tied⟩).upsert ⟨23, 5, 3, 1, .draft, tied⟩
  commits := Table.empty.upsert
    ⟨31, 5, some 1, "alice", "", "refs/heads/main", 7, 0, "start", tied, none, none, []⟩

/-- What `serde_json` writes for a cursor of this time. -/
def tiedJson (hex : String) : List UInt8 :=
  ("\x7b\"created_at\":\"1970-01-01T00:00:00.000005Z\",\"id\":\"00000000-0000-0000-0000-0000000000" ++
    hex ++ "\"\x7d").toList.map fun c => UInt8.ofNat c.toNat

def tiedTable : List (Cursor × List UInt8) :=
  [(⟨tied, 5⟩, tiedJson "05"), (⟨tied, 21⟩, tiedJson "15"), (⟨tied, 22⟩, tiedJson "16"),
    (⟨tied, 23⟩, tiedJson "17"), (⟨tied, 31⟩, tiedJson "1f")]

def tiedPayload : Payload where
  toVec c := ((tiedTable.find? fun row => decide (row.1 = c)).map Prod.snd).getD []
  fromSlice bytes := (tiedTable.find? fun row => decide (row.2 = bytes)).map Prod.fst

/-- The texts differ where the ids do. -/
theorem tiedJson_eq_iff {a b : String} : tiedJson a = tiedJson b ↔
    a.toList.map (fun c => UInt8.ofNat c.toNat) = b.toList.map fun c => UInt8.ofNat c.toNat := by
  simp only [tiedJson, String.toList_append, List.map_append, List.append_cancel_left_eq,
    List.append_cancel_right_eq]

theorem find?_of_apart {α β : Type} [DecidableEq β] {f : α → β} {l : List α} {a : α} (ha : a ∈ l)
    (hapart : ∀ b ∈ l, f b = f a → b = a) : (l.find? fun b => decide (f b = f a)) = some a := by
  cases hfind : l.find? fun b => decide (f b = f a) with
  | none => exact absurd (decide_eq_true rfl) (List.find?_eq_none.mp hfind a ha)
  | some b => rw [hapart b (List.mem_of_find?_eq_some hfind) (by simpa using List.find?_some hfind)]

/-- The table by the last digits of its ids. -/
theorem tiedTable_eq : tiedTable =
    ([(5, "05"), (21, "15"), (22, "16"), (23, "17"), (31, "1f")] : List (Uuid × String)).map
      fun e => (⟨tied, e.1⟩, tiedJson e.2) := rfl

theorem apart_tiedTable : ∀ a ∈ tiedTable, ∀ b ∈ tiedTable, b.1 = a.1 ∨ b.2 = a.2 → b = a := by
  rw [tiedTable_eq]
  simp only [List.forall_mem_map, Cursor.mk.injEq, true_and, tiedJson_eq_iff, Prod.mk.injEq]
  decide +kernel

theorem reads_tied : ∀ c ∈ tiedTable.map Prod.fst, tiedPayload.Reads c := by
  intro c hc
  obtain ⟨row, hrow, rfl⟩ := List.mem_map.mp hc
  have hkey := find?_of_apart hrow fun b hb h => apart_tiedTable row hrow b hb (.inl h)
  have htext := find?_of_apart hrow fun b hb h => apart_tiedTable row hrow b hb (.inr h)
  have hwritten : tiedPayload.toVec row.1 = row.2 := by
    simp only [tiedPayload, hkey, Option.map_some, Option.getD_some]
  unfold Payload.Reads
  rw [hwritten]
  simp only [tiedPayload, htext, Option.map_some]

theorem readsBack_tied : ReadsBack tiedPayload tiedStore where
  reviews := by
    have hmem : ∀ r ∈ tiedStore.reviews.rows, r.cursor ∈ tiedTable.map Prod.fst := by
      decide +kernel
    exact fun r hr => reads_tied _ (hmem r hr)
  commits := by
    have hmem : ∀ c ∈ tiedStore.commits.rows, c.cursor ∈ tiedTable.map Prod.fst := by
      decide +kernel
    exact fun c hc => reads_tied _ (hmem c hc)
  contributed := by
    have hmem : ∀ c ∈ tiedStore.commits.rows, ∀ r ∈ tiedStore.world.repositories.rows,
        (⟨c.createdAt, r.id⟩ : Cursor) ∈ tiedTable.map Prod.fst := by
      decide +kernel
    exact fun c hc r hr => reads_tied _ (hmem c hc r hr)

theorem cursors_enumerate_tied :
    Enumerates (reviewsPage tiedPayload tiedStore "alice" "site" none (some 1)) ReviewRow.cursor
      (VisibleReview tiedStore "alice" "site" none) ∧
    Enumerates (commitsPage tiedPayload tiedStore (fun _ _ => .ok "refs/heads/main") ⟨tied, 0⟩ "alice"
      "site" "main" none none (some 1)) CommitRow.cursor
      (VisibleCommit tiedStore 5 "refs/heads/main" unixEpoch tied) ∧
    Enumerates (contributedPage tiedPayload tiedStore ⟨tied, 0⟩ "alice" none none (some 1))
      ContributedRepo.cursor (VisibleContributed tiedStore 1 none 0) := by
  obtain ⟨hreviews, hcommits, hcontributed⟩ := cursors_enumerate tiedPayload tiedStore readsBack_tied
    ⟨tied, 0⟩ (fun _ _ => .ok "refs/heads/main") (some 1)
  refine ⟨hreviews "alice" "site" none, ?_, ?_⟩
  · exact hcommits "alice" "site" "main" ⟨5, "site", 1, .user, .publicRepo, false, .empty⟩
      "refs/heads/main" none none nofun (by decide +kernel) (by decide +kernel)
  · exact hcontributed "alice" ⟨1, "alice"⟩ none none (by decide +kernel)

end Listings
end Gitdot
