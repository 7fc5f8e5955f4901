/-
# Comments on a review

The methods of `ReviewServiceImpl` that reply to a comment, edit, resolve or
submit comments, as programs of their calls to the review repository, and
the handlers that authorize the caller before them. The path of a request
names a review; the comment it is about, the revisions its comments point to
and the comments they answer come with it as ids.

Key definitions: `CommentCall`, `World.execComment`, `replyToReviewComment`,
`updateReviewComment`, `resolveReviewComment`, `reviewReviewDiff`, and the
handlers named after them.
-/
import Gitdot.Lib.Prog
import Gitdot.Server.Authorization

namespace Gitdot

open Lib Prog

/-! ### Requests -/

structure ReplyToReviewCommentRequest where
  owner : String
  repo : String
  number : ℤ
  commentId : Uuid
  userId : Uuid
  body : String
  deriving DecidableEq

structure UpdateReviewCommentRequest where
  owner : String
  repo : String
  number : ℤ
  commentId : Uuid
  userId : Uuid
  body : String
  deriving DecidableEq

structure ResolveReviewCommentRequest where
  owner : String
  repo : String
  number : ℤ
  commentId : Uuid
  userId : Uuid
  resolved : Bool
  deriving DecidableEq

structure ReviewCommentInput where
  revisionId : RevisionId
  parentId : Option Uuid
  body : String
  place : CommentPlace
  deriving DecidableEq

inductive ReviewAction where
  | comment
  | approve
  | reject
  deriving DecidableEq

structure ReviewReviewDiffRequest where
  owner : String
  repo : String
  number : ℤ
  position : ℤ
  reviewerId : Uuid
  action : ReviewAction
  comments : List ReviewCommentInput
  deriving DecidableEq

/-! ### Calls -/

/-- The calls of these methods. -/
inductive CommentCall where
  | getReviewByNumber (owner repo : String) (number : ℤ)
  | getComment (id : Uuid)
  | createComment (review : Uuid) (diff : DiffId) (revision : RevisionId) (author : Uuid)
      (body : String) (parent : Option Uuid) (place : CommentPlace)
  | updateComment (id : Uuid) (body : String)
  | resolveComment (id : Uuid) (resolved : Bool)
  | createVerdict (diff : DiffId) (revision : RevisionId) (reviewer : Uuid) (verdict : Verdict)
  | touchReview (id : Uuid)
  deriving DecidableEq

/-- What a call answers. -/
@[reducible] def CommentCall.Resp : CommentCall → Type
  | .getReviewByNumber _ _ _ => Option Review
  | .getComment _ => Option ReviewComment
  | .createComment _ _ _ _ _ _ _ => ReviewComment
  | .updateComment _ _ => ReviewComment
  | .resolveComment _ _ => Unit
  | .createVerdict _ _ _ _ => Unit
  | .touchReview _ => Unit

namespace World

/-- The row `create_comment` inserts under the id drawn for it. -/
def newComment (id review : Uuid) (diff : DiffId) (revision : RevisionId) (author : Uuid)
    (body : String) (parent : Option Uuid) (place : CommentPlace) : ReviewComment :=
  { id := id, reviewId := review, diffId := diff, revisionId := revision, authorId := author,
    parentId := parent, body := body, place := place, resolved := false }

/-- The foreign keys of a comment to its revision and to its parent. The ones
to its review, diff and author are of rows the method has just read. -/
def Referable (w : World) (revision : RevisionId) (parent : Option Uuid) : Prop :=
  w.hasRevision revision = true ∧ ∀ p ∈ parent, (w.comments.get? p).isSome = true

instance (w : World) (revision : RevisionId) (parent : Option Uuid) :
    Decidable (w.Referable revision parent) :=
  decidable_of_iff (w.hasRevision revision = true ∧
    (parent.all fun p => (w.comments.get? p).isSome) = true) (by cases parent <;> simp [Referable])

/-- `create_comment`: refused by the foreign keys, and by the primary key if
the id drawn is taken. -/
def createComment (w : World) (id review : Uuid) (diff : DiffId) (revision : RevisionId)
    (author : Uuid) (body : String) (parent : Option Uuid) (place : CommentPlace) :
    Except CallError ReviewComment × World :=
  let comment := newComment id review diff revision author body parent place
  if w.Referable revision parent then
    match w.comments.insert? comment with
    | some comments => (.ok comment, { w with comments := comments })
    | none => (.error (.database .uniqueViolation), w)
  else (.error (.database .foreignKeyViolation), w)

section CreateComment

variable {w : World} {id review author : Uuid} {diff : DiffId} {revision : RevisionId}
  {body : String} {parent : Option Uuid} {place : CommentPlace}

theorem createComment_ok {comments : Table ReviewComment} (hfk : w.Referable revision parent)
    (hins : w.comments.insert? (newComment id review diff revision author body parent place) =
      some comments) :
    w.createComment id review diff revision author body parent place =
      (.ok (newComment id review diff revision author body parent place),
        { w with comments := comments }) := by
  simp only [createComment, if_pos hfk, hins]

theorem createComment_error (h : w.Referable revision parent →
      w.comments.insert? (newComment id review diff revision author body parent place) = none) :
    ∃ e, w.createComment id review diff revision author body parent place = (.error e, w) := by
  by_cases hfk : w.Referable revision parent
  · exact ⟨_, by simp only [createComment, if_pos hfk, h hfk]; rfl⟩
  · exact ⟨_, by simp only [createComment, if_neg hfk]; rfl⟩

end CreateComment

/-- `update_comment`: its `fetch_one` fails if there is no such comment. -/
def updateComment (w : World) (id : Uuid) (body : String) :
    Except CallError ReviewComment × World :=
  match w.comments.get? id with
  | none => (.error (.database .rowNotFound), w)
  | some comment => (.ok { comment with body := body }, { w with
      comments := w.comments.modify id (fun c => { c with body := body }) fun _ => rfl })

/-- `resolve_comment`: the comment and its replies. -/
def resolveComment (w : World) (id : Uuid) (resolved : Bool) : World :=
  { w with
    comments := w.comments.mapRows
      (fun c => if c.id = id ∨ c.parentId = some id then { c with resolved := resolved } else c)
      fun c => by split_ifs <;> rfl }

theorem get?_resolveComment (w : World) (id : Uuid) (resolved : Bool) (k : Uuid) :
    (w.resolveComment id resolved).comments.get? k = (w.comments.get? k).map fun c =>
      if c.id = id ∨ c.parentId = some id then { c with resolved := resolved } else c := by
  unfold resolveComment
  rw [Table.get?_mapRows]

/-- Performs a call. `draw n` is the id the database draws for a comment when
there are `n`. -/
def execComment (draw : ℕ → Uuid) : (c : CommentCall) → World → Except CallError c.Resp × World
  | .getReviewByNumber owner repo number, w => (.ok (w.getReviewByNumber owner repo number), w)
  | .getComment id, w => (.ok (w.comments.get? id), w)
  | .createComment review diff revision author body parent place, w =>
    w.createComment (draw w.comments.rows.length) review diff revision author body parent place
  | .updateComment id body, w => w.updateComment id body
  | .resolveComment id resolved, w => (.ok (), w.resolveComment id resolved)
  | .createVerdict diff revision reviewer verdict, w =>
    (.ok (), { w with verdicts := ⟨diff, revision, reviewer, verdict⟩ :: w.verdicts })
  | .touchReview _, w => (.ok (), w)

/-- What answers the calls. One that fails from outside lost its connection. -/
def commentCalls (draw : ℕ → Uuid) : Handler CommentCall CommentCall.Resp CallError World where
  exec := execComment draw
  fault := fun _ => .database .connection

@[simp] theorem commentCalls_exec (draw : ℕ → Uuid) :
    (commentCalls draw).exec = execComment draw := rfl

end World

/-! ### The service -/

/-- Programs over the calls on comments. -/
abbrev CommentProg := Prog CommentCall CommentCall.Resp CallError ReviewError

/-- One call under `?`. -/
def askComment (c : CommentCall) : CommentProg c.Resp := Prog.perform CallError.toReviewError c

/-- `n` in so many hexadecimal digits. -/
def hexDigits : ℕ → ℕ → List Char
  | 0, _ => []
  | width + 1, n => hexDigits width (n / 16) ++ [Nat.digitChar (n % 16)]

/-- `to_string` of a UUID: its digits in groups of 8, 4, 4, 4 and 12. -/
def Uuid.text (id : Uuid) : String :=
  let digits := hexDigits 32 id.val
  let group (start length : ℕ) := String.ofList ((digits.drop start).take length)
  s!"{group 0 8}-{group 8 4}-{group 12 4}-{group 16 4}-{group 20 12}"

def replyToReviewComment (request : ReplyToReviewCommentRequest) : CommentProg ReviewComment := do
  let parent ← askComment (.getComment request.commentId)
  let parent ← Prog.liftExcept (orNotFound parent "comment" (Uuid.text request.commentId))
  askComment (.createComment parent.reviewId parent.diffId parent.revisionId request.userId
    request.body (some parent.id) .none)

def updateReviewComment (request : UpdateReviewCommentRequest) : CommentProg ReviewComment :=
  askComment (.updateComment request.commentId request.body)

def resolveReviewComment (request : ResolveReviewCommentRequest) : CommentProg ReviewComment := do
  let comment ← askComment (.getComment request.commentId)
  let comment ← Prog.liftExcept (orNotFound comment "comment" (Uuid.text request.commentId))
  if comment.parentId.isSome then
    .fail (.input "comment"
      "Cannot resolve a reply directly, resolve the parent comment instead")
  else do
    askComment (.resolveComment request.commentId request.resolved)
    let updated ← askComment (.getComment request.commentId)
    Prog.liftExcept (orNotFound updated "comment" (Uuid.text request.commentId))

/-- `get_review_by_id`. -/
def getReviewAt (owner repo : String) (number : ℤ) : CommentProg Review := do
  let review ← askComment (.getReviewByNumber owner repo number)
  Prog.liftExcept (orNotFound review "review" s!"{owner}/{repo}/review/{number}")

/-- The verdict of an action on a diff, for its latest revision. -/
def createVerdictFor (diff : Diff) (id : DiffId) (reviewer : Uuid) (position : ℤ) :
    ReviewAction → CommentProg Unit
  | .comment => .ret ()
  | .approve => do
    let revision ← Prog.liftExcept
      (orNotFound diff.latest? "revision" s!"diff at position {position}")
    askComment (.createVerdict id ⟨id, revision.number⟩ reviewer .approved)
  | .reject => do
    let revision ← Prog.liftExcept
      (orNotFound diff.latest? "revision" s!"diff at position {position}")
    askComment (.createVerdict id ⟨id, revision.number⟩ reviewer .rejected)

/-- The loop of `review_review_diff` over the comments of the request. -/
def createComments (review : Uuid) (diff : DiffId) (reviewer : Uuid) :
    List ReviewCommentInput → CommentProg Unit
  | [] => .ret ()
  | comment :: comments => do
    let _ ← askComment (.createComment review diff comment.revisionId reviewer comment.body
      comment.parentId comment.place)
    createComments review diff reviewer comments

def reviewReviewDiff (request : ReviewReviewDiffRequest) : CommentProg Review := do
  let review ← getReviewAt request.owner request.repo request.number
  let diff ← Prog.liftExcept
    (orNotFound (review.diffs.get? request.position) "diff" s!"position {request.position}")
  if request.action ≠ .comment ∧ diff.status = .merged then .fail .diffAlreadyMerged
  else if request.action ≠ .comment ∧ request.reviewerId = review.authorId then
    .fail .cannotReviewOwnDiff
  else do
    createVerdictFor diff ⟨review.id, diff.position⟩ request.reviewerId request.position
      request.action
    createComments review.id ⟨review.id, diff.position⟩ request.reviewerId request.comments
    askComment (.touchReview review.id)
    getReviewAt request.owner request.repo request.number

/-! ### The handlers -/

/-- A service method behind an authorization: what the handlers do. -/
def World.guarded {α : Type} (w : World) (draw : ℕ → Uuid) (plan : List Bool)
    (authorized : Except AuthorizationError Unit) (p : CommentProg α) : Except AppError α × World :=
  match authorized with
  | .error e => (.error (.authorization e), w)
  | .ok () =>
    let out := run (commentCalls draw) p plan w
    (out.1.mapError .review, out.2)

namespace World

variable (w : World) (draw : ℕ → Uuid) (plan : List Bool)

def replyToReviewCommentHandler (request : ReplyToReviewCommentRequest) :
    Except AppError ReviewComment × World :=
  w.guarded draw plan
    (w.verifyAuthorizedForReviewing ⟨request.userId, request.owner, request.repo, request.number⟩)
    (replyToReviewComment request)

def updateReviewCommentHandler (request : UpdateReviewCommentRequest) :
    Except AppError ReviewComment × World :=
  w.guarded draw plan (w.verifyAuthorizedForReviewComment ⟨request.userId, request.commentId⟩)
    (updateReviewComment request)

def resolveReviewCommentHandler (request : ResolveReviewCommentRequest) :
    Except AppError ReviewComment × World :=
  w.guarded draw plan
    (w.verifyAuthorizedForReview ⟨request.userId, request.owner, request.repo, request.number⟩)
    (resolveReviewComment request)

def reviewReviewDiffHandler (request : ReviewReviewDiffRequest) : Except AppError Review × World :=
  w.guarded draw plan
    (w.verifyAuthorizedForReviewing
      ⟨request.reviewerId, request.owner, request.repo, request.number⟩)
    (reviewReviewDiff request)

end World
end Gitdot
