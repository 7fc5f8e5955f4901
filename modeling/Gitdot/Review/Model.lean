/-
# Reviews, their diffs and revisions

The rows of `core.reviews`, `core.diffs` and `core.revisions` as
`get_review_by_number` returns them, the revisions nested in their diff and
the diffs in their review; the requests of the review service, and its
errors.

`UNIQUE(review_id, position)` and `UNIQUE(diff_id, number)` make the position
a key of a review's diffs and the number one of a diff's revisions, so a diff
and a revision are addressed by these (`DiffId`, `RevisionId`) where the code
has a surrogate id for them. Timestamps, verdicts and the author's profile
are left out: no method reads them.

Key definitions: `Revision`, `Diff`, `Review`, `ReviewError`.
-/
import Mathlib.Algebra.Group.Nat.Defs
import Mathlib.Algebra.Ring.Int.Defs
import Mathlib.Algebra.Ring.Nat
import Gitdot.Lib.Table
import Gitdot.Git

namespace Gitdot

open Lib

/-- A UUID. -/
abbrev Uuid := Fin (2 ^ 128)

instance Uuid.instNeZero : NeZero (2 ^ 128 : ℕ) := ⟨by decide⟩

instance Uuid.instLawfulBEq : LawfulBEq Uuid := inferInstance

/-- The first eight digits of a UUID's text, `id.to_string()[..8]`. -/
def Uuid.short (id : Uuid) : ℕ := id.val / 2 ^ 96

/-- `ReviewStatus`. -/
inductive ReviewStatus where
  | draft
  | open
  | closed
  deriving DecidableEq

/-- `DiffStatus`. -/
inductive DiffStatus where
  | draft
  | open
  | merged
  deriving DecidableEq

/-- The status as serde writes it, without its quotes. -/
def ReviewStatus.text : ReviewStatus → String
  | .draft => "draft"
  | .open => "open"
  | .closed => "closed"

/-- The status as serde writes it, without its quotes. -/
def DiffStatus.text : DiffStatus → String
  | .draft => "draft"
  | .open => "open"
  | .merged => "merged"

/-- A row of `core.revisions`. -/
structure Revision where
  number : ℤ
  commitHash : Sha
  parentHash : Sha
  deriving DecidableEq

instance : Keyed Revision ℤ := ⟨Revision.number⟩

/-- A row of `core.diffs` with its revisions. -/
structure Diff where
  position : ℤ
  message : String
  status : DiffStatus
  revisions : Table Revision
  deriving DecidableEq

instance : Keyed Diff ℤ := ⟨Diff.position⟩

/-- A row of `core.reviews` with its diffs and the ids of its reviewers. -/
structure Review where
  id : Uuid
  number : ℤ
  authorId : Uuid
  title : String
  description : String
  targetBranch : String
  status : ReviewStatus
  diffs : Table Diff
  reviewers : List Uuid
  deriving DecidableEq

instance : Keyed Review Uuid := ⟨Review.id⟩

@[simp] theorem key_revision (r : Revision) : Keyed.key r = r.number := rfl
@[simp] theorem key_diff (d : Diff) : Keyed.key d = d.position := rfl
@[simp] theorem key_review (r : Review) : Keyed.key r = r.id := rfl

/-- The latest revision: the first of a list that comes `ORDER BY number DESC`. -/
def Diff.latest? (d : Diff) : Option Revision := d.revisions.last?

/-- A diff of a review. -/
structure DiffId where
  review : Uuid
  position : ℤ
  deriving DecidableEq

/-- A revision of a diff. -/
structure RevisionId where
  diff : DiffId
  number : ℤ
  deriving DecidableEq

/-! ### Requests -/

/-- A push to `refs/for/<branch>` or `refs/for/<branch>/<number>`. -/
structure ProcessReviewRequest where
  owner : String
  repo : String
  targetBranch : String
  reviewNumber : Option ℤ
  newSha : Sha
  pusherId : Uuid
  deriving DecidableEq

structure PublishReviewRequest where
  owner : String
  repo : String
  number : ℤ
  deriving DecidableEq

structure PublishReviewDiffRequest where
  owner : String
  repo : String
  number : ℤ
  position : ℤ
  deriving DecidableEq

structure UpdateReviewRequest where
  owner : String
  repo : String
  number : ℤ
  title : Option String
  description : Option String
  deriving DecidableEq

structure UpdateReviewDiffRequest where
  owner : String
  repo : String
  number : ℤ
  position : ℤ
  message : Option String
  deriving DecidableEq

structure MergeReviewDiffRequest where
  owner : String
  repo : String
  number : ℤ
  position : ℤ
  deriving DecidableEq

/-- `as i32`: the two's complement value of the low 32 bits. -/
def asI32 (n : ℤ) : ℤ := n.bmod (2 ^ 32)

/-! ### Errors -/

/-- `DatabaseError`, its `Other` told apart by what the database reports. -/
inductive DatabaseError where
  | rowNotFound
  | uniqueViolation
  | foreignKeyViolation
  | connection
  deriving DecidableEq

/-- The errors a call to a repository layer or to the git client returns. -/
inductive CallError where
  | database (e : DatabaseError)
  | git (e : GitError)
  deriving DecidableEq

/-- `ReviewError`. -/
inductive ReviewError where
  | input (field reason : String)
  | notFound (entity id : String)
  | conflict (entity id : String)
  | cannotReviewOwnReview (name : String)
  | cannotReviewOwnDiff
  | diffAlreadyMerged
  | reviewNotPublishable (message : String)
  | diffNotPublishable (message : String)
  | diffNotMergeable (message : String)
  | commitsNotFound
  | gitError (e : GitError)
  | databaseError (e : DatabaseError)
  deriving DecidableEq

/-- The conversion the `?` of a service method applies to a call's error. -/
def CallError.toReviewError : CallError → ReviewError
  | .database e => .databaseError e
  | .git e => .gitError e

/-- `or_not_found`. -/
def orNotFound {α : Type} (a : Option α) (entity id : String) : Except ReviewError α :=
  match a with
  | some a => .ok a
  | none => .error (.notFound entity id)

end Gitdot
