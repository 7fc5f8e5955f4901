/-
# The calls of the review service

One repository as the review service sees it: the row of
`core.repositories`, the reviews, and where the refs of its git directory
point. `Call` lists the calls of the service to its repository layer and to
the git client, and `exec` performs one: a call either does all of what it
does or fails and does nothing. All calls of one method name the same
`owner/repo`, so the pair is left out of them.

Key definitions: `RepoState`, `Call`, `exec`, `callFault`, `handler`.
-/
import Gitdot.Lib.Prog
import Gitdot.Review.Model

namespace Gitdot

open Lib

/-- What the review service reads and writes of one repository. -/
@[ext] structure RepoState where
  repository : Option Uuid
  reviews : Table Review
  refs : Refs

/-- The calls of the review service. -/
inductive Call where
  -- git client
  | resolveRefSha (name : RefName)
  | revList (old new : Sha)
  | createRef (name : RefName) (sha : Sha)
  | updateRef (name : RefName) (sha : Sha)
  | getCommitPatchId (sha : Sha)
  | cherryPickCommit (commit newParent : Sha)
  -- `RepositoryRepository`
  | getRepository
  -- `ReviewRepository`
  | getReviewByNumber (number : ℤ)
  | createReview (repository author : Uuid) (targetBranch : String)
  | updateReview (id : Uuid) (status : Option ReviewStatus) (title description : Option String)
  | createDiff (review : Uuid) (position : ℤ) (message : String)
  | updateDiff (id : DiffId) (status : Option DiffStatus) (message : Option String)
  | createRevision (diff : DiffId) (number : ℤ) (commitHash parentHash : Sha)
  | updateRevisionSha (id : RevisionId) (commitHash parentHash : Sha)
  deriving DecidableEq

/-- A call that changes no row and no ref, whether it answers or fails. An
update that gives no column only touches `updated_at`. -/
def Call.Idle : Call → Prop
  | .resolveRefSha _ | .revList .. | .getCommitPatchId _ | .cherryPickCommit .. | .getRepository
  | .getReviewByNumber _ => True
  | .updateReview _ none none none => True
  | _ => False

/-- What a call answers. -/
@[reducible] def Call.Resp : Call → Type
  | .resolveRefSha _ => Sha
  | .revList _ _ => List Commit
  | .createRef _ _ => Unit
  | .updateRef _ _ => Unit
  | .getCommitPatchId _ => ℕ
  | .cherryPickCommit _ _ => Sha
  | .getRepository => Option Uuid
  | .getReviewByNumber _ => Option Review
  | .createReview _ _ _ => Review
  | .updateReview _ _ _ _ => Unit
  | .createDiff _ _ _ => Diff
  | .updateDiff _ _ _ => Unit
  | .createRevision _ _ _ _ => Revision
  | .updateRevisionSha _ _ _ => Unit

/-! ### Queries of the repository layer -/

namespace RepoState

variable (s : RepoState)

/-- `get_review_by_number`. -/
def getReviewByNumber (number : ℤ) : Option Review :=
  s.reviews.rows.find? fun r => decide (r.number = number)

/-- `COALESCE(MAX(number), 0)` over the reviews of the repository. -/
def maxNumber : ℤ := (s.reviews.rows.map Review.number).foldl max 0

/-- The row `create_review` inserts, `id` being what `gen_random_uuid()` draws
for it. -/
def newReview (id author : Uuid) (targetBranch : String) : Review :=
  { id := id, number := s.maxNumber + 1, authorId := author, title := "", description := "",
    targetBranch := targetBranch, status := .draft, diffs := .empty, reviewers := [] }

/-- `create_review`. -/
def createReview (id author : Uuid) (targetBranch : String) :
    Except CallError Review × RepoState :=
  match s.reviews.insert? (s.newReview id author targetBranch) with
  | some reviews => (.ok (s.newReview id author targetBranch), { s with reviews := reviews })
  | none => (.error (.database .uniqueViolation), s)

/-- `update_review`: only the given columns are overwritten. -/
def updateReview (id : Uuid) (status : Option ReviewStatus) (title description : Option String) :
    RepoState :=
  { s with
    reviews := s.reviews.modify id
      (fun r => { r with
        status := status.getD r.status
        title := title.getD r.title
        description := description.getD r.description })
      fun _ => rfl }

/-- Rewrites the diffs of a review. -/
def setDiffs (id : Uuid) (f : Table Diff → Table Diff) : RepoState :=
  { s with reviews := s.reviews.modify id (fun r => { r with diffs := f r.diffs }) fun _ => rfl }

/-- `create_diff`: refused by the foreign key if there is no such review, and
by the unique constraint if the position is taken. -/
def createDiff (review : Uuid) (position : ℤ) (message : String) :
    Except CallError Diff × RepoState :=
  match s.reviews.get? review with
  | none => (.error (.database .foreignKeyViolation), s)
  | some r =>
    let diff : Diff :=
      { position := position, message := message, status := .draft, revisions := .empty }
    match r.diffs.insert? diff with
    | none => (.error (.database .uniqueViolation), s)
    | some diffs => (.ok diff, s.setDiffs review fun _ => diffs)

/-- `update_diff`: only the given columns are overwritten. -/
def updateDiff (id : DiffId) (status : Option DiffStatus) (message : Option String) : RepoState :=
  s.setDiffs id.review fun diffs => diffs.modify id.position
    (fun d => { d with status := status.getD d.status, message := message.getD d.message })
    fun _ => rfl

/-- `create_revision`: refused by the foreign key if there is no such diff,
and by the unique constraint if the number is taken. -/
def createRevision (id : DiffId) (number : ℤ) (commitHash parentHash : Sha) :
    Except CallError Revision × RepoState :=
  match (s.reviews.get? id.review).bind fun r => r.diffs.get? id.position with
  | none => (.error (.database .foreignKeyViolation), s)
  | some d =>
    let revision : Revision := ⟨number, commitHash, parentHash⟩
    match d.revisions.insert? revision with
    | none => (.error (.database .uniqueViolation), s)
    | some revisions => (.ok revision, s.setDiffs id.review fun diffs =>
        diffs.modify id.position (fun d => { d with revisions := revisions }) fun _ => rfl)

/-- `update_revision_sha`. -/
def updateRevisionSha (id : RevisionId) (commitHash parentHash : Sha) : RepoState :=
  s.setDiffs id.diff.review fun diffs => diffs.modify id.diff.position
    (fun d => { d with
      revisions := d.revisions.modify id.number
        (fun r => { r with commitHash := commitHash, parentHash := parentHash }) fun _ => rfl })
    fun _ => rfl

/-! ### The git client -/

/-- `resolve_ref_sha`. -/
def resolveRefSha (name : RefName) : Except CallError Sha :=
  match s.refs name with
  | some sha => .ok sha
  | none => .error (.git (.notFound "revspec not found"))

/-- `create_ref`: a ref that exists is not overwritten. -/
def createRef (name : RefName) (sha : Sha) : Except CallError Unit × RepoState :=
  match s.refs name with
  | some _ => (.error (.git (.git2Error "reference with that name already exists")), s)
  | none => (.ok (), { s with refs := s.refs.set name sha })

/-- `update_ref`: points the ref at `sha` whether or not it exists. -/
def updateRef (name : RefName) (sha : Sha) : RepoState :=
  { s with refs := s.refs.set name sha }

end RepoState

/-! ### Performing a call -/

/-- Performs a call. `draw` is the id the database draws for a new review. -/
def exec (g : Git) (draw : Uuid) : (c : Call) → RepoState → Except CallError c.Resp × RepoState
  | .resolveRefSha name, s => (s.resolveRefSha name, s)
  | .revList old new, s => (.ok (g.revList old new), s)
  | .createRef name sha, s => s.createRef name sha
  | .updateRef name sha, s => (.ok (), s.updateRef name sha)
  | .getCommitPatchId sha, s => (.ok (g.patchId sha), s)
  | .cherryPickCommit commit newParent, s =>
    ((g.cherryPickCommit commit newParent).mapError .git, s)
  | .getRepository, s => (.ok s.repository, s)
  | .getReviewByNumber number, s => (.ok (s.getReviewByNumber number), s)
  | .createReview _ author targetBranch, s => s.createReview draw author targetBranch
  | .updateReview id status title description, s =>
    (.ok (), s.updateReview id status title description)
  | .createDiff review position message, s => s.createDiff review position message
  | .updateDiff id status message, s => (.ok (), s.updateDiff id status message)
  | .createRevision diff number commitHash parentHash, s =>
    s.createRevision diff number commitHash parentHash
  | .updateRevisionSha id commitHash parentHash, s =>
    (.ok (), s.updateRevisionSha id commitHash parentHash)

/-- The error of a call that fails from outside: a lost connection, a failing
disk. -/
def callFault : Call → CallError
  | .resolveRefSha _ => .git (.git2Error "io")
  | .revList _ _ => .git (.git2Error "io")
  | .createRef _ _ => .git (.git2Error "io")
  | .updateRef _ _ => .git (.git2Error "io")
  | .getCommitPatchId _ => .git (.git2Error "io")
  | .cherryPickCommit _ _ => .git (.git2Error "io")
  | _ => .database .connection

/-- What answers the calls of the review service. -/
def handler (g : Git) (draw : Uuid) : Prog.Handler Call Call.Resp CallError RepoState where
  exec := exec g draw
  fault := callFault

@[simp] theorem handler_exec (g : Git) (draw : Uuid) : (handler g draw).exec = exec g draw := rfl
@[simp] theorem handler_fault (g : Git) (draw : Uuid) : (handler g draw).fault = callFault := rfl

/-! ### Finding a review by its number -/

theorem RepoState.mem_of_getReviewByNumber {s : RepoState} {number : ℤ} {r : Review}
    (h : s.getReviewByNumber number = some r) : s.reviews.get? r.id = some r ∧ r.number = number :=
  ⟨Table.get?_key (List.mem_of_find?_eq_some h), by simpa using List.find?_some h⟩

end Gitdot
