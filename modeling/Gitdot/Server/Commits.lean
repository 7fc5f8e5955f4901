/-
# Commits under the refs they were pushed to

After a push `process_post_receive` has `create_commits` record the commits of
`rev_list(old, new)` in `core.commits`, each with the ref of the push, and
`list_by_repository` lists the rows of one ref. A repository has one row for a
commit, and the insert skips those that are there: a commit that has come with
another ref before keeps that ref, and the push to a second branch leaves it out
of the second branch's list.

So all pushes that were recorded are listed under their refs exactly if, whenever
one was, those of its commits that were recorded before were so under the same
ref (`commits_listed_iff`). The background tasks of the pushes write in one statement
each, so any order of them is a sequence of pushes.

Key definitions: `Objects`, `createBulk`, `createCommits`,
`processPostReceive`, `Listed`, `AllListed`, `SameRef`.
Key theorems: `createBulk_spec`, `allListed_record`, `commits_listed_iff`.
-/
import Gitdot.Lib.Reach
import Gitdot.Server.Listings

namespace Gitdot
namespace Commits

open Lib Keyed Listings
open Auth (Time)

/-! ### The git repository -/

/-- The author of a commit. -/
structure GitAuthor where
  name : String
  email : String
  deriving DecidableEq

/-- The commits, by their ids: their graph, authors and dates, and the lines that
each changes. -/
structure Objects where
  git : Git
  author : Sha → GitAuthor
  date : Sha → Time
  diff : Option Sha → Sha → Except GitError (List CommitDiff)

/-- `RepositoryCommitResponse`. -/
structure GitCommit where
  sha : Sha
  parentSha : Option Sha
  message : String
  date : Time
  author : GitAuthor
  deriving DecidableEq

/-- `RepositoryCommitResponse::from`. -/
def Objects.commit (o : Objects) (c : Commit) : GitCommit :=
  ⟨c.sha, (o.git.parents c.sha).head?, c.message, o.date c.sha, o.author c.sha⟩

/-- `rev_list`, in a repository that has some of the commits. -/
def Objects.revList (o : Objects) (has : Sha → Bool) (old new : Sha) :
    Except GitError (List GitCommit) :=
  if has new = false then .error (.git2Error s!"object not found - no match for id ({new})")
  else if old ≠ 0 ∧ has old = false then
    .error (.git2Error s!"object not found - no match for id ({old})")
  else .ok ((o.git.revList old new).map o.commit)

/-! ### The service -/

/-- `CreateCommitsRequest`. -/
structure CreateCommitsRequest where
  owner : String
  repo : String
  oldSha : Sha
  newSha : Sha
  refName : String
  reviewNumber : Option ℤ
  diffPositions : Sha → Option ℤ

/-- `CommitError`. -/
inductive CommitError where
  | notFound (entity id : String)
  | git (e : GitError)
  | database (e : DatabaseError)
  deriving DecidableEq

/-- `(repo_id, sha)` is taken. -/
def isRecorded (t : Table CommitRow) (repoId : Uuid) (sha : Sha) : Bool :=
  t.rows.any fun x => decide (x.repoId = repoId ∧ x.sha = sha)

/-- `create_bulk`: the rows that are inserted, and the table after. -/
def createBulk : List CommitRow → Table CommitRow →
    Except DatabaseError (List CommitRow × Table CommitRow)
  | [], t => .ok ([], t)
  | row :: rows, t =>
    if isRecorded t row.repoId row.sha then createBulk rows t
    else
      match t.insert? row with
      | none => .error .uniqueViolation
      | some t' => (createBulk rows t').map fun out => (row :: out.1, out.2)

/-- What a call of `create_commits` meets: the ids that are drawn for its rows,
and the users whose emails are verified. -/
structure Draw where
  id : Sha → Uuid
  userByEmail : String → Option Uuid

/-- The row of a commit. -/
def rowOf (draw : Draw) (repoId : Uuid) (request : CreateCommitsRequest) (c : GitCommit)
    (diffs : List CommitDiff) : CommitRow where
  id := draw.id c.sha
  repoId := repoId
  authorId := draw.userByEmail c.author.email
  gitAuthorName := c.author.name
  gitAuthorEmail := c.author.email
  refName := request.refName
  sha := c.sha
  parentSha := c.parentSha.getD 0
  message := c.message
  createdAt := c.date
  reviewNumber := request.reviewNumber
  diffPosition := request.diffPositions c.sha
  diffs := diffs

/-- The rows of the commits, each with its diff to its first parent. -/
def rowsOf (o : Objects) (draw : Draw) (repoId : Uuid) (request : CreateCommitsRequest) :
    List GitCommit → Except GitError (List CommitRow)
  | [] => .ok []
  | c :: commits => do
    let diffs ← o.diff c.parentSha c.sha
    let rows ← rowsOf o draw repoId request commits
    return rowOf draw repoId request c diffs :: rows

/-- What opens the git directory at a path, and says which commits it has. -/
abbrev Client := String → String → Except GitError (Sha → Bool)

/-- `create_commits`. -/
def createCommits (o : Objects) (client : Client) (s : ListingStore) (draw : Draw)
    (request : CreateCommitsRequest) : Except CommitError (List CommitRow × ListingStore) := do
  let repository ← okOr (s.world.getRepository request.owner request.repo)
    (.notFound "repository" s!"{request.owner}/{request.repo}")
  let has ← (client request.owner request.repo).mapError .git
  let gitCommits ← (o.revList has request.oldSha request.newSha).mapError .git
  let rows ← (rowsOf o draw repository.id request gitCommits).mapError .git
  let out ← (createBulk rows s.commits).mapError .database
  return (out.1, { s with commits := out.2 })

/-- A push, as the hook reports it. -/
structure PostReceive where
  owner : String
  repo : String
  refName : String
  oldSha : Sha
  newSha : Sha

/-- `process_post_receive`: the request its background task makes. -/
def processPostReceive (push : PostReceive) : CreateCommitsRequest :=
  ⟨push.owner, push.repo, push.oldSha, push.newSha, push.refName, none, fun _ => none⟩

/-! ### What a bulk insert does -/

/-- What a bulk insert makes of the table. -/
structure Inserted (rows inserted : List CommitRow) (t t' : Table CommitRow) : Prop where
  mem : ∀ x, x ∈ t'.rows ↔ x ∈ inserted ∨ x ∈ t.rows
  subset : ∀ x ∈ inserted, x ∈ rows
  fresh : ∀ x ∈ inserted, isRecorded t x.repoId x.sha = false
  all : ∀ row ∈ rows, isRecorded t' row.repoId row.sha = true

theorem isRecorded_iff {t : Table CommitRow} {repoId : Uuid} {sha : Sha} :
    isRecorded t repoId sha = true ↔ ∃ x ∈ t.rows, x.repoId = repoId ∧ x.sha = sha := by
  simp [isRecorded]

theorem isRecorded_mono {t t' : Table CommitRow} (h : ∀ x ∈ t.rows, x ∈ t'.rows) {repoId : Uuid}
    {sha : Sha} (hr : isRecorded t repoId sha = true) : isRecorded t' repoId sha = true := by
  obtain ⟨x, hx, hid⟩ := isRecorded_iff.mp hr
  exact isRecorded_iff.mpr ⟨x, h x hx, hid⟩

/-- `UNIQUE(repo_id, sha)`. -/
def OnePerCommit (t : Table CommitRow) : Prop :=
  ∀ x ∈ t.rows, ∀ y ∈ t.rows, x.repoId = y.repoId → x.sha = y.sha → x = y

theorem onePerCommit_insert {t t' : Table CommitRow} {row : CommitRow} (h : OnePerCommit t)
    (hrow : isRecorded t row.repoId row.sha = false) (hins : t.insert? row = some t') :
    OnePerCommit t' := by
  have hnew : ∀ y ∈ t.rows, row.repoId = y.repoId → row.sha ≠ y.sha := by
    intro y hy hid hsha
    have hrec : isRecorded t row.repoId row.sha = true :=
      isRecorded_iff.mpr ⟨y, hy, hid.symm, hsha.symm⟩
    rw [hrow] at hrec
    cases hrec
  intro x hx y hy hid hsha
  rcases (Table.mem_insert? hins).mp hx with rfl | hx
  · rcases (Table.mem_insert? hins).mp hy with rfl | hy
    · rfl
    · exact absurd hsha (hnew y hy hid)
  · rcases (Table.mem_insert? hins).mp hy with rfl | hy
    · exact absurd hsha.symm (hnew x hx hid.symm)
    · exact h x hx y hy hid hsha

/-- The first row is recorded, or it is inserted and the others after it. -/
theorem createBulk_cons {row : CommitRow} {rows inserted : List CommitRow} {t t' : Table CommitRow}
    (h : createBulk (row :: rows) t = .ok (inserted, t')) :
    (isRecorded t row.repoId row.sha = true ∧ createBulk rows t = .ok (inserted, t')) ∨
    (isRecorded t row.repoId row.sha = false ∧ ∃ t₁ rest, t.insert? row = some t₁ ∧
      createBulk rows t₁ = .ok (rest, t') ∧ inserted = row :: rest) := by
  unfold createBulk at h
  by_cases hrow : isRecorded t row.repoId row.sha = true
  · rw [if_pos hrow] at h
    exact .inl ⟨hrow, h⟩
  · have hrow : isRecorded t row.repoId row.sha = false := by simpa using hrow
    rw [if_neg (by simp [hrow])] at h
    cases hinsert : t.insert? row with
    | none =>
      rw [hinsert] at h
      cases h
    | some t₁ =>
      rw [hinsert] at h
      cases hrest : createBulk rows t₁ with
      | error e =>
        simp only [hrest] at h
        cases h
      | ok out =>
        obtain ⟨rest, t₂⟩ := out
        simp only [hrest, Except.map, Except.ok.injEq, Prod.mk.injEq] at h
        obtain ⟨rfl, rfl⟩ := h
        exact .inr ⟨hrow, t₁, rest, rfl, hrest, rfl⟩

theorem Inserted.skip {row : CommitRow} {rows inserted : List CommitRow} {t t' : Table CommitRow}
    (h : Inserted rows inserted t t') (hrow : isRecorded t row.repoId row.sha = true) :
    Inserted (row :: rows) inserted t t' := by
  refine ⟨h.mem, fun x hx => List.mem_cons_of_mem _ (h.subset x hx), h.fresh, fun x hx => ?_⟩
  rcases List.mem_cons.mp hx with rfl | hx
  · exact isRecorded_mono (fun y hy => (h.mem y).mpr (.inr hy)) hrow
  · exact h.all x hx

theorem Inserted.cons {row : CommitRow} {rows rest : List CommitRow} {t t₁ t' : Table CommitRow}
    (h : Inserted rows rest t₁ t') (hrow : isRecorded t row.repoId row.sha = false)
    (hinsert : t.insert? row = some t₁) : Inserted (row :: rows) (row :: rest) t t' := by
  have hmem : ∀ x, x ∈ t₁.rows ↔ x = row ∨ x ∈ t.rows := fun x => Table.mem_insert? hinsert
  refine ⟨fun x => ?_, fun x hx => ?_, fun x hx => ?_, fun x hx => ?_⟩
  · rw [h.mem, hmem, List.mem_cons]
    tauto
  · rcases List.mem_cons.mp hx with rfl | hx
    · exact List.mem_cons_self
    · exact List.mem_cons_of_mem _ (h.subset x hx)
  · rcases List.mem_cons.mp hx with rfl | hx
    · exact hrow
    · by_contra hrec
      have hrec : isRecorded t₁ x.repoId x.sha = true :=
        isRecorded_mono (fun y hy => (hmem y).mpr (.inr hy)) (by simpa using hrec)
      rw [h.fresh x hx] at hrec
      cases hrec
  · rcases List.mem_cons.mp hx with rfl | hx
    · exact isRecorded_iff.mpr ⟨x, (h.mem x).mpr (.inr ((hmem x).mpr (.inl rfl))), rfl, rfl⟩
    · exact h.all x hx

/-- **A bulk insert.** It adds rows for what is not recorded, and leaves one row
for each commit. -/
theorem createBulk_spec : ∀ {rows inserted : List CommitRow} {t t' : Table CommitRow},
    OnePerCommit t → createBulk rows t = .ok (inserted, t') →
      Inserted rows inserted t t' ∧ OnePerCommit t'
  | [], inserted, t, t', hone, h => by
    simp only [createBulk, Except.ok.injEq, Prod.mk.injEq] at h
    obtain ⟨rfl, rfl⟩ := h
    exact ⟨⟨by simp, by simp, by simp, by simp⟩, hone⟩
  | row :: rows, inserted, t, t', hone, h => by
    rcases createBulk_cons h with ⟨hrow, hrest⟩ | ⟨hrow, t₁, rest, hinsert, hrest, rfl⟩
    · obtain ⟨hins, hone'⟩ := createBulk_spec hone hrest
      exact ⟨hins.skip hrow, hone'⟩
    · obtain ⟨hins, hone'⟩ := createBulk_spec (onePerCommit_insert hone hrow hinsert) hrest
      exact ⟨hins.cons hrow hinsert, hone'⟩

/-! ### Recorded pushes -/

/-- What a push has recorded: the repository, the ref, and the commits of
`rev_list(old, new)`. -/
structure Recording where
  repoId : Uuid
  refName : String
  commits : List Sha
  deriving DecidableEq

/-- The store, and the pushes recorded so far. -/
structure Log where
  store : ListingStore
  recorded : List Recording

section Record

variable (o : Objects) (client : Client)

/-- What there is to record of a push. -/
def recordingOf (world : World) (push : PostReceive) : Option Recording := do
  let repository ← world.getRepository push.owner push.repo
  let has ← (client push.owner push.repo).toOption
  let gitCommits ← (o.revList has push.oldSha push.newSha).toOption
  return ⟨repository.id, push.refName, gitCommits.map GitCommit.sha⟩

/-- The background task of a push. One that fails has recorded nothing. -/
def record (push : PostReceive × Draw) (s : Log) : Log :=
  match createCommits o client s.store push.2 (processPostReceive push.1),
    recordingOf o client s.store.world push.1 with
  | .ok out, some r => ⟨out.2, r :: s.recorded⟩
  | _, _ => s

end Record

/-- `list_by_repository` returns the commit for the ref, over all its pages,
whatever their limit and in any window that the commit's date is in. -/
def Listed (date : Sha → Time) (s : ListingStore) (repoId : Uuid) (refName : String) (c : Sha) :
    Prop :=
  ∀ start stop limit, start ≤ date c → date c ≤ stop → 1 ≤ limit →
    ∃ rows enough, (∀ n, enough ≤ n →
      followPages (fun cursor => listByRepository s repoId refName start stop cursor limit) n none =
        some rows) ∧ ∃ row ∈ rows, row.sha = c

/-- **The claim.** Each commit of each recorded push is listed under its ref. -/
def AllListed (date : Sha → Time) (s : Log) : Prop :=
  ∀ r ∈ s.recorded, ∀ c ∈ r.commits, Listed date s.store r.repoId r.refName c

/-- **The condition.** If the push is recorded, those of its commits that have a
row in the repository have it under the ref of the push. -/
def SameRef (o : Objects) (client : Client) (s : Log) (push : PostReceive × Draw) : Prop :=
  ∀ out, createCommits o client s.store push.2 (processPostReceive push.1) = .ok out →
    ∀ r, recordingOf o client s.store.world push.1 = some r → ∀ c ∈ r.commits,
      ∀ x ∈ s.store.commits.rows, x.repoId = r.repoId → x.sha = c → x.refName = r.refName

/-- Commits have one row each, dated as the commit is, and what was recorded has
one. -/
structure Sound (date : Sha → Time) (s : Log) : Prop where
  one : OnePerCommit s.store.commits
  dated : ∀ x ∈ s.store.commits.rows, x.createdAt = date x.sha
  kept : ∀ r ∈ s.recorded, ∀ c ∈ r.commits, isRecorded s.store.commits r.repoId c = true

section Listed

variable {date : Sha → Time} {s : ListingStore} {repoId : Uuid} {refName : String} {c : Sha}

/-- A commit is listed where its row is. -/
theorem listed_iff_row (hdated : ∀ x ∈ s.commits.rows, x.createdAt = date x.sha) :
    Listed date s repoId refName c ↔
      ∃ x ∈ s.commits.rows, x.repoId = repoId ∧ x.refName = refName ∧ x.sha = c := by
  have hfollow : ∀ (start stop limit n : ℕ), 1 ≤ limit →
      (commitsOn s repoId refName start stop).length < n →
      followPages (fun cursor => listByRepository s repoId refName start stop cursor limit) n none =
        some (descending CommitRow.cursor (commitsOn s repoId refName start stop)) := by
    intro start stop limit n hlimit hn
    have hall : below CommitRow.cursor none (commitsOn s repoId refName start stop) =
        commitsOn s repoId refName start stop := List.filter_eq_self.mpr fun _ _ => rfl
    rw [← hall] at hn
    have hpages := follow_page (nodup_commitsOn (s := s) repoId refName start stop) hlimit hn
    rw [hall] at hpages
    exact hpages
  constructor
  · intro h
    obtain ⟨rows, enough, hrows, x, hx, hsha⟩ := h (date c) (date c) 1 le_rfl le_rfl le_rfl
    have hfound := hfollow (date c) (date c) 1
      (max enough ((commitsOn s repoId refName (date c) (date c)).length + 1)) le_rfl (by omega)
    rw [hrows _ (le_max_left _ _)] at hfound
    rw [Option.some.inj hfound] at hx
    obtain ⟨hmem, hid, href, -⟩ := mem_commitsOn.mp ((descending_perm _ _).mem_iff.mp hx)
    exact ⟨x, hmem, hid, href, hsha⟩
  · rintro ⟨x, hx, hid, href, rfl⟩ start stop limit hstart hstop hlimit
    refine ⟨_, _, fun n hn => hfollow start stop limit n hlimit (Nat.lt_of_succ_le hn), x, ?_, rfl⟩
    refine (descending_perm _ _).mem_iff.mpr (mem_commitsOn.mpr ⟨hx, hid, href, ?_, ?_⟩)
    · rw [hdated x hx]
      exact hstart
    · rw [hdated x hx]
      exact hstop

end Listed

/-! ### What a recording does -/

section Step

variable {o : Objects} {client : Client} {s : Log} {push : PostReceive × Draw} {r : Recording}

/-- The rows of the commits, one for each. -/
theorem rowsOf_spec {draw : Draw} {repoId : Uuid} {request : CreateCommitsRequest} :
    ∀ {commits : List GitCommit} {rows : List CommitRow},
      rowsOf o draw repoId request commits = .ok rows →
        (∀ row ∈ rows, ∃ c ∈ commits, row.sha = c.sha ∧ row.createdAt = c.date ∧
          row.repoId = repoId ∧ row.refName = request.refName) ∧
        ∀ c ∈ commits, ∃ row ∈ rows, row.sha = c.sha ∧ row.repoId = repoId
  | [], rows, h => by
    cases h
    exact ⟨by simp, by simp⟩
  | c :: commits, rows, h => by
    unfold rowsOf at h
    obtain ⟨diffs, hdiffs, h⟩ := bind_eq_ok.mp h
    obtain ⟨rest, hrest, h⟩ := bind_eq_ok.mp h
    cases h
    obtain ⟨hrows, hcommits⟩ := rowsOf_spec hrest
    constructor
    · intro row hrow
      rcases List.mem_cons.mp hrow with rfl | hrow
      · exact ⟨c, List.mem_cons_self, rfl, rfl, rfl, rfl⟩
      · obtain ⟨d, hd, hfacts⟩ := hrows row hrow
        exact ⟨d, List.mem_cons_of_mem _ hd, hfacts⟩
    · intro d hd
      rcases List.mem_cons.mp hd with rfl | hd
      · exact ⟨_, List.mem_cons_self, rfl, rfl⟩
      · obtain ⟨row, hrow, hfacts⟩ := hcommits d hd
        exact ⟨row, List.mem_cons_of_mem _ hrow, hfacts⟩

/-- What is new in the table after a push was recorded, and that all of its
commits are in. -/
structure Records (o : Objects) (r : Recording) (t t' : Table CommitRow) : Prop where
  old : ∀ x ∈ t.rows, x ∈ t'.rows
  new : ∀ x ∈ t'.rows, x ∈ t.rows ∨ x.repoId = r.repoId ∧ x.refName = r.refName ∧
    x.createdAt = o.date x.sha ∧ isRecorded t x.repoId x.sha = false
  all : ∀ c ∈ r.commits, isRecorded t' r.repoId c = true
  one : OnePerCommit t'

/-- What has to go well for a push to be recorded. -/
theorem createCommits_eq_ok {s : ListingStore} {push : PostReceive × Draw}
    {out : List CommitRow × ListingStore}
    (h : createCommits o client s push.2 (processPostReceive push.1) = .ok out) :
    ∃ repository has commits rows, s.world.getRepository push.1.owner push.1.repo = some repository ∧
      client push.1.owner push.1.repo = .ok has ∧
      o.revList has push.1.oldSha push.1.newSha = .ok commits ∧
      rowsOf o push.2 repository.id (processPostReceive push.1) commits = .ok rows ∧
      createBulk rows s.commits = .ok (out.1, out.2.commits) ∧ out.2.world = s.world := by
  obtain ⟨repository, hrepository, h⟩ := bind_eq_ok.mp h
  obtain ⟨has, hhas, h⟩ := bind_eq_ok.mp h
  obtain ⟨commits, hcommits, h⟩ := bind_eq_ok.mp h
  obtain ⟨rows, hrows, h⟩ := bind_eq_ok.mp h
  obtain ⟨bulk, hbulk, h⟩ := bind_eq_ok.mp h
  cases h
  exact ⟨repository, has, commits, rows, okOr_eq_ok.mp hrepository, mapError_eq_ok.mp hhas,
    mapError_eq_ok.mp hcommits, mapError_eq_ok.mp hrows, mapError_eq_ok.mp hbulk, rfl⟩

/-- The commits are dated as the objects are. -/
theorem date_of_mem_revList {has : Sha → Bool} {old new : Sha} {commits : List GitCommit}
    (h : o.revList has old new = .ok commits) : ∀ c ∈ commits, c.date = o.date c.sha := by
  intro c hc
  unfold Objects.revList at h
  split_ifs at h
  cases h
  obtain ⟨d, -, rfl⟩ := List.mem_map.mp hc
  rfl

/-- **One push.** It is recorded, or nothing happens. -/
theorem record_cases (o : Objects) (client : Client) (push : PostReceive × Draw)
    (hone : OnePerCommit s.store.commits) :
    record o client push s = s ∧
        (∃ e, createCommits o client s.store push.2 (processPostReceive push.1) = .error e) ∨
      ∃ out r, createCommits o client s.store push.2 (processPostReceive push.1) = .ok out ∧
        recordingOf o client s.store.world push.1 = some r ∧
          record o client push s = ⟨out.2, r :: s.recorded⟩ ∧
            out.2.world = s.store.world ∧ Records o r s.store.commits out.2.commits := by
  cases hcreate : createCommits o client s.store push.2 (processPostReceive push.1) with
  | error e =>
    left
    refine ⟨?_, e, rfl⟩
    unfold record
    rw [hcreate]
  | ok out =>
    right
    obtain ⟨repository, has, commits, rows, hrepository, hhas, hcommits, hrows, hbulk, hworld⟩ :=
      createCommits_eq_ok hcreate
    obtain ⟨hrow, hcommit⟩ := rowsOf_spec hrows
    obtain ⟨hins, hone'⟩ := createBulk_spec hone hbulk
    have hrecording : recordingOf o client s.store.world push.1 =
        some ⟨repository.id, push.1.refName, commits.map GitCommit.sha⟩ := by
      simp only [recordingOf, hrepository, hhas, Except.toOption, Option.bind_eq_bind, Option.bind_some,
        hcommits]
      rfl
    refine ⟨_, _, rfl, hrecording, ?_, hworld, ?_⟩
    · unfold record
      rw [hcreate, hrecording]
    · refine ⟨fun x hx => (hins.mem x).mpr (.inr hx), fun x hx => ?_, fun c hc => ?_, hone'⟩
      · rcases (hins.mem x).mp hx with hx | hx
        · obtain ⟨c, hc, hsha, hat, hid, href⟩ := hrow x (hins.subset x hx)
          refine .inr ⟨hid, href, ?_, hins.fresh x hx⟩
          rw [hat, date_of_mem_revList hcommits c hc, hsha]
        · exact .inl hx
      · obtain ⟨d, hd, rfl⟩ := List.mem_map.mp hc
        obtain ⟨row, hmem, hsha, hid⟩ := hcommit d hd
        have hall := hins.all row hmem
        rwa [hsha, hid] at hall

theorem sound_record (client : Client) (push : PostReceive × Draw) (h : Sound o.date s) :
    Sound o.date (record o client push s) := by
  rcases record_cases o client push h.one with
    ⟨hsame, -⟩ | ⟨out, r, -, -, hrecord, -, hr⟩
  · rw [hsame]
    exact h
  · rw [hrecord]
    refine ⟨hr.one, fun x hx => ?_, fun q hq c hc => ?_⟩
    · rcases hr.new x hx with hx | ⟨-, -, hat, -⟩
      · exact h.dated x hx
      · exact hat
    · rcases List.mem_cons.mp hq with rfl | hq
      · exact hr.all c hc
      · exact isRecorded_mono hr.old (h.kept q hq c hc)

/-- **One push.** All pushes are listed after it exactly if they were before, and
it meets the condition. -/
theorem allListed_record (h : Sound o.date s) :
    AllListed o.date (record o client push s) ↔ AllListed o.date s ∧ SameRef o client s push := by
  have hsound := sound_record client push h
  rcases record_cases o client push h.one with
    ⟨hsame, e, herror⟩ | ⟨out, r, hcreate, hrecording, hrecord, -, hr⟩
  · rw [hsame]
    refine ⟨fun hall => ⟨hall, fun out hout => ?_⟩, fun hall => hall.1⟩
    rw [herror] at hout
    cases hout
  · rw [hrecord] at hsound ⊢
    -- a row of a commit is the row that it had before, if it had one
    have hrow : ∀ {repoId : Uuid} {c : Sha}, isRecorded s.store.commits repoId c = true →
        ∀ y ∈ out.2.commits.rows, y.repoId = repoId → y.sha = c → y ∈ s.store.commits.rows := by
      intro repoId c hrec y hy hid hsha
      obtain ⟨x, hx, hxid, hxsha⟩ := isRecorded_iff.mp hrec
      have hxy : x = y := hr.one x (hr.old x hx) y hy (hxid.trans hid.symm) (hxsha.trans hsha.symm)
      exact hxy ▸ hx
    constructor
    · intro hall
      constructor
      · intro q hq c hc
        obtain ⟨y, hy, hid, href, hsha⟩ :=
          (listed_iff_row hsound.dated).mp (hall q (List.mem_cons_of_mem _ hq) c hc)
        exact (listed_iff_row h.dated).mpr ⟨y, hrow (h.kept q hq c hc) y hy hid hsha, hid, href, hsha⟩
      · intro out' hout' r' hr' c hc x hx hid hsha
        obtain rfl : r = r' := Option.some.inj (hrecording.symm.trans hr')
        obtain ⟨y, hy, hyid, href, hysha⟩ :=
          (listed_iff_row hsound.dated).mp (hall r List.mem_cons_self c hc)
        have hxy : x = y :=
          hr.one x (hr.old x hx) y hy (hid.trans hyid.symm) (hsha.trans hysha.symm)
        exact hxy ▸ href
    · rintro ⟨hall, hsame⟩ q hq c hc
      rcases List.mem_cons.mp hq with rfl | hq
      · obtain ⟨y, hy, hid, hsha⟩ := isRecorded_iff.mp (hr.all c hc)
        refine (listed_iff_row hsound.dated).mpr ⟨y, hy, hid, ?_, hsha⟩
        rcases hr.new y hy with hy | ⟨-, href, -, -⟩
        · exact hsame out hcreate q hrecording c hc y hy hid hsha
        · exact href
      · obtain ⟨y, hy, hid, href, hsha⟩ := (listed_iff_row h.dated).mp (hall q hq c hc)
        exact (listed_iff_row hsound.dated).mpr ⟨y, hr.old y hy, hid, href, hsha⟩

end Step

/-- Commits have one row each, dated as the commit is, and no push is recorded
yet. -/
structure Initial (date : Sha → Time) (s : Log) : Prop where
  one : OnePerCommit s.store.commits
  dated : ∀ x ∈ s.store.commits.rows, x.createdAt = date x.sha
  none : s.recorded = []

theorem allListed_play {o : Objects} {client : Client} : ∀ {pushes : List (PostReceive × Draw)}
    {s : Log}, Sound o.date s →
      (AllListed o.date (play (record o client) pushes s) ↔
        AllListed o.date s ∧ Guarded (record o client) (SameRef o client) pushes s)
  | [], _, _ => ⟨fun h => ⟨h, trivial⟩, fun h => h.1⟩
  | push :: pushes, s, h => by
    rw [play, Guarded, allListed_play (sound_record client push h), allListed_record h, and_assoc]

/-- **Commits are listed under every branch that has them**, exactly if each push
that was recorded met the condition. -/
theorem commits_listed_iff (o : Objects) (client : Client) (s : Log) (hs : Initial o.date s)
    (pushes : List (PostReceive × Draw)) :
    AllListed o.date (play (record o client) pushes s) ↔
      Guarded (record o client) (SameRef o client) pushes s := by
  have hsound : Sound o.date s := by
    refine ⟨hs.one, hs.dated, fun r hr => ?_⟩
    rw [hs.none] at hr
    cases hr
  have hall : AllListed o.date s := by
    intro r hr
    rw [hs.none] at hr
    cases hr
  rw [allListed_play hsound]
  exact ⟨fun h => h.2, fun h => ⟨hall, h⟩⟩

/-! ### A branch that becomes the main one -/

/-- One commit, without a parent. -/
def oneCommit : Objects where
  git := Git.ofHistory [⟨[], 0, 0⟩, ⟨[], 1, 1⟩] (by decide)
  author _ := ⟨"alice", ""⟩
  date _ := tied
  diff _ _ := .ok []

/-- No commit is recorded. -/
def noCommits : Log := ⟨{ tiedStore with commits := .empty }, []⟩

theorem initial_noCommits : Initial oneCommit.date noCommits :=
  ⟨fun _ hx => (nomatch hx), fun _ hx => (nomatch hx), rfl⟩

/-- The commit is pushed to one ref after the other. -/
def pushedTo (refNames : List String) : List (PostReceive × Draw) :=
  refNames.map fun refName =>
    (⟨"alice", "site", refName, 0, 1⟩, ⟨fun c => Fin.ofNat _ (40 + c), fun _ => none⟩)

theorem commits_listed_iff_twice :
    AllListed oneCommit.date (play (record oneCommit fun _ _ => .ok fun _ => true)
        (pushedTo ["refs/heads/main", "refs/heads/main"]) noCommits) ↔
      Guarded (record oneCommit fun _ _ => .ok fun _ => true)
        (SameRef oneCommit fun _ _ => .ok fun _ => true)
        (pushedTo ["refs/heads/main", "refs/heads/main"]) noCommits :=
  commits_listed_iff _ _ _ initial_noCommits _

/-- The commit is pushed to a feature branch, and then to the main one. -/
theorem not_commits_listed_featureThenMain : ¬ ∀ (o : Objects) (client : Client) (s : Log),
    Initial o.date s → ∀ pushes, AllListed o.date (play (record o client) pushes s) := by
  intro h
  have hall := h oneCommit (fun _ _ => .ok fun _ => true) noCommits initial_noCommits
    (pushedTo ["refs/heads/feature", "refs/heads/main"])
  have hrows : (play (record oneCommit fun _ _ => .ok fun _ => true)
      (pushedTo ["refs/heads/feature", "refs/heads/main"]) noCommits).store.commits.rows =
        [⟨41, 5, none, "alice", "", "refs/heads/feature", 1, 0, "", tied, none, none, []⟩] := by
    decide +kernel
  have hrecorded : (play (record oneCommit fun _ _ => .ok fun _ => true)
      (pushedTo ["refs/heads/feature", "refs/heads/main"]) noCommits).recorded =
        [⟨5, "refs/heads/main", [1]⟩, ⟨5, "refs/heads/feature", [1]⟩] := by
    decide +kernel
  have hlisted := hall ⟨5, "refs/heads/main", [1]⟩ (by rw [hrecorded]; decide) 1 (by decide)
  obtain ⟨x, hx, -, href, -⟩ := (listed_iff_row (by rw [hrows]; decide)).mp hlisted
  rw [hrows] at hx
  obtain rfl := List.mem_singleton.mp hx
  exact absurd href (by decide)

end Commits
end Gitdot
