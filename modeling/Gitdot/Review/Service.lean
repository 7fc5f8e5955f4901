/-
# The review service

The methods of `ReviewServiceImpl` that write reviews or refs, each as the
program of its calls. A `for` over a list is a recursion over it that carries
what the loop carries: the position and the previous SHA where the commits of
a push are numbered, the new parent where diffs are rebased.

Key definitions: `createReview`, `processReviewUpdate`, `publishReview`,
`publishReviewDiff`, `updateReview`, `updateReviewDiff`, `mergeReviewDiff`.
-/
import Gitdot.Review.Store

namespace Gitdot

open Lib

/-- Programs of the review service. -/
abbrev ReviewProg := Prog Call Call.Resp CallError ReviewError

/-- One call under `?`. -/
def ask (c : Call) : ReviewProg c.Resp := Prog.perform CallError.toReviewError c

/-- `get_review_by_id`. -/
def getReviewById (owner repo : String) (number : ℤ) : ReviewProg Review := do
  let review ← ask (.getReviewByNumber number)
  Prog.liftExcept (orNotFound review "review" s!"{owner}/{repo}/review/{number}")

/-! ### Pushes -/

/-- A new diff position: the body of the loop of `create_review`, and of the
loop of `process_review_update` in its last branch. -/
def createDiffAt (id : Uuid) (position : ℤ) (previousSha : Sha) (commit : Commit) :
    ReviewProg Unit := do
  let diff ← ask (.createDiff id position commit.message)
  let _ ← ask (.createRevision ⟨id, diff.position⟩ 1 commit.sha previousSha)
  ask (.createRef (getRevisionRef id.short position 1) commit.sha)
  ask (.createRef (getCurrentRef id.short position) commit.sha)

/-- The loop of `create_review` over the pushed commits, oldest first. -/
def createDiffs (id : Uuid) : ℤ → Sha → List Commit → ReviewProg Unit
  | _, _, [] => .ret ()
  | position, previousSha, commit :: commits => do
    createDiffAt id position previousSha commit
    createDiffs id (position + 1) commit.sha commits

def createReview (request : ProcessReviewRequest) : ReviewProg Review := do
  let targetSha ← ask (.resolveRefSha (getTargetRef request.targetBranch))
  let commits ← ask (.revList targetSha request.newSha)
  if commits = [] then .fail .commitsNotFound else do
    let repository ← ask .getRepository
    let repository ← Prog.liftExcept
      (orNotFound repository "repository" s!"{request.owner}/{request.repo}")
    let review ← ask (.createReview repository request.pusherId request.targetBranch)
    createDiffs review.id 1 targetSha commits.reverse
    ask (.createRef (getHeadRef review.id.short) request.newSha)
    return review

/-- An existing diff against the commit pushed to its position: the body of the
loop of `process_review_update` in its first branch. -/
def updateDiffAt (request : ProcessReviewRequest) (reviewNumber : ℤ) (id : Uuid) (position : ℤ)
    (previousSha : Sha) (commit : Commit) (existingDiff : Diff) : ReviewProg Unit := do
  let latestRevision ← Prog.liftExcept (orNotFound existingDiff.latest? "revision"
    s!"{request.owner}/{request.repo}/review/{reviewNumber}/diff/{position} has no revisions")
  let oldPatchId ← ask (.getCommitPatchId latestRevision.commitHash)
  let newPatchId ← ask (.getCommitPatchId commit.sha)
  if oldPatchId = newPatchId then do
    -- rebased but unchanged
    ask (.updateRevisionSha ⟨⟨id, existingDiff.position⟩, latestRevision.number⟩ commit.sha
      previousSha)
    ask (.updateRef (getRevisionRef id.short position latestRevision.number) commit.sha)
    ask (.updateRef (getCurrentRef id.short position) commit.sha)
  else do
    -- actually modified
    let newRevisionNumber := latestRevision.number + 1
    let _ ← ask (.createRevision ⟨id, existingDiff.position⟩ newRevisionNumber commit.sha
      previousSha)
    ask (.createRef (getRevisionRef id.short position newRevisionNumber) commit.sha)
    ask (.updateRef (getCurrentRef id.short position) commit.sha)
    ask (.updateDiff ⟨id, existingDiff.position⟩ (some .open) none)

/-- The body of the loop of `process_review_update`. -/
def pushDiffAt (request : ProcessReviewRequest) (reviewNumber : ℤ) (id : Uuid) (position : ℤ)
    (previousSha : Sha) (commit : Commit) : Option Diff → ReviewProg Unit
  | some existingDiff =>
    updateDiffAt request reviewNumber id position previousSha commit existingDiff
  | none => createDiffAt id position previousSha commit

/-- The loop of `process_review_update` over the pushed commits, oldest first. -/
def pushDiffs (request : ProcessReviewRequest) (reviewNumber : ℤ) (id : Uuid)
    (existingDiffs : Table Diff) : ℤ → Sha → List Commit → ReviewProg Unit
  | _, _, [] => .ret ()
  | position, previousSha, commit :: commits => do
    pushDiffAt request reviewNumber id position previousSha commit (existingDiffs.get? position)
    pushDiffs request reviewNumber id existingDiffs (position + 1) commit.sha commits

/-- The review number of an update, `as i32`. -/
def ProcessReviewRequest.number? (request : ProcessReviewRequest) : Except ReviewError ℤ :=
  match request.reviewNumber with
  | some number => .ok (asI32 number)
  | none => .error (.input "ref name" "missing review number")

def processReviewUpdate (request : ProcessReviewRequest) : ReviewProg Review := do
  let reviewNumber ← Prog.liftExcept request.number?
  let review ← getReviewById request.owner request.repo reviewNumber
  let targetSha ← ask (.resolveRefSha (getTargetRef request.targetBranch))
  let commits ← ask (.revList targetSha request.newSha)
  if commits = [] then .fail .commitsNotFound else do
    pushDiffs request reviewNumber review.id review.diffs 1 targetSha commits.reverse
    ask (.updateRef (getHeadRef review.id.short) request.newSha)
    ask (.updateReview review.id none none none)
    getReviewById request.owner request.repo reviewNumber

/-! ### Publishing -/

def publishReview (request : PublishReviewRequest) : ReviewProg Review := do
  let review ← getReviewById request.owner request.repo request.number
  if review.status ≠ .draft then
    .fail (.reviewNotPublishable s!"review is in '{review.status.text}' status, expected 'draft'")
  else do
    let pendingCount := (review.diffs.rows.filter fun d => d.status = .draft).length
    if pendingCount > 0 then
      .fail (.reviewNotPublishable (toString pendingCount ++
        " diff(s) are still in draft — all diffs must be open before publishing"))
    else do
      ask (.updateReview review.id (some .open) none none)
      getReviewById request.owner request.repo request.number

def publishReviewDiff (request : PublishReviewDiffRequest) : ReviewProg Review := do
  let review ← getReviewById request.owner request.repo request.number
  if review.status ≠ .draft then
    .fail (.diffNotPublishable s!"review is in '{review.status.text}' status, expected 'draft'")
  else do
    let diff ← Prog.liftExcept
      (orNotFound (review.diffs.get? request.position) "diff" s!"position {request.position}")
    if diff.status ≠ .draft then
      .fail (.diffNotPublishable (s!"diff at position {request.position} is in " ++
        s!"'{diff.status.text}' status, expected 'draft'"))
    else do
      ask (.updateDiff ⟨review.id, diff.position⟩ (some .open) none)
      ask (.updateReview review.id none none none)
      getReviewById request.owner request.repo request.number

/-! ### Editing texts -/

def updateReview (request : UpdateReviewRequest) : ReviewProg Review := do
  let review ← getReviewById request.owner request.repo request.number
  ask (.updateReview review.id none request.title request.description)
  getReviewById request.owner request.repo request.number

def updateReviewDiff (request : UpdateReviewDiffRequest) : ReviewProg Review := do
  let review ← getReviewById request.owner request.repo request.number
  let diff ← Prog.liftExcept (orNotFound (review.diffs.get? request.position) "diff"
    s!"{request.owner}/{request.repo}/review/{review.number}/diff/{request.position}")
  ask (.updateDiff ⟨review.id, diff.position⟩ none request.message)
  ask (.updateReview review.id none none none)
  getReviewById request.owner request.repo request.number

/-! ### Merging -/

/-- The diffs a merge selects: `diffs_to_merge`. -/
def diffsToMerge (review : Review) (position : ℤ) : List Diff :=
  review.diffs.rows.filter fun d => d.position ≤ position ∧ d.status ≠ .merged

/-- A diff with its latest revision. -/
def withRevision (diff : Diff) : Except ReviewError (Diff × Revision) := do
  let revision ← orNotFound diff.latest? "revision"
    s!"diff at position {diff.position} has no revisions"
  return (diff, revision)

/-- The error of a failed cherry-pick. -/
def cherryPickError (position : ℤ) : CallError → ReviewError
  | .git (.mergeConflict _) => .diffNotMergeable
    (s!"conflict rebasing diff at position {position} onto target branch; " ++
      "update the review to resolve conflicts before merging")
  | e => e.toReviewError

/-- The loop of `merge_review_diff` that rebases the selected diffs, returning
the last rebased commit. -/
def rebaseDiffs (id : Uuid) : Sha → List (Diff × Revision) → ReviewProg Sha
  | newParentSha, [] => .ret newParentSha
  | newParentSha, (diff, revision) :: rest => do
    let newSha ← Prog.perform (cherryPickError diff.position)
      (.cherryPickCommit revision.commitHash newParentSha)
    ask (.updateRevisionSha ⟨⟨id, diff.position⟩, revision.number⟩ newSha newParentSha)
    ask (.updateRef (getCurrentRef id.short diff.position) newSha)
    rebaseDiffs id newSha rest

/-- The loop of `merge_review_diff` that marks the selected diffs merged. -/
def markMerged (id : Uuid) : List (Diff × Revision) → ReviewProg Unit
  | [] => .ret ()
  | (diff, _) :: rest => do
    ask (.updateDiff ⟨id, diff.position⟩ (some .merged) none)
    markMerged id rest

def mergeReviewDiff (request : MergeReviewDiffRequest) : ReviewProg Review := do
  let review ← getReviewById request.owner request.repo request.number
  if review.status ≠ .open then
    .fail (.diffNotMergeable "review must be open to merge diffs")
  else
    match diffsToMerge review request.position with
    | [] => .fail (.notFound "diff"
        s!"no open diffs found at or before position {request.position}")
    | diff :: diffs => do
      let first ← Prog.liftExcept (withRevision diff)
      let rest ← Prog.liftExcept (diffs.mapM withRevision)
      let targetSha ← ask (.resolveRefSha (getTargetRef review.targetBranch))
      let mergeCommitSha ←
        if targetSha = first.2.parentHash then
          -- the target has not moved: fast-forward
          Prog.ret (rest.getLastD first).2.commitHash
        else rebaseDiffs review.id targetSha (first :: rest)
      ask (.updateRef (getTargetRef review.targetBranch) mergeCommitSha)
      markMerged review.id (first :: rest)
      let allMerged := review.diffs.rows.all fun d =>
        d.status = .merged ∨ d.position ≤ request.position
      ask (.updateReview review.id (if allMerged then some .closed else none) none none)
      getReviewById request.owner request.repo request.number

end Gitdot
