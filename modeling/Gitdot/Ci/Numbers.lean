/-
# Build numbers

`create` of `ci.builds` is one INSERT that takes MAX (number) + 1 of the
repository as the number of the new row. Two calls for one repository whose
statements overlap draw the same number, and the second of them is refused by
UNIQUE (repository_id, number) (`webhooks_collide`). `create_review` draws its
number in the same way, but under an advisory lock on the repository.

Numbers are consecutive and no call is refused as long as no create of a
repository takes its snapshot while another one is under way
(`builds_numbered`), which the lock ensures for reviews (`reviews_numbered`).

Key definitions: `Build`, `CreateBuild`, `buildScheme`, `reviewScheme`.
Key theorems: `builds_numbered`, `reviews_numbered`.
-/
import Gitdot.Ci.Build
import Gitdot.Ci.Runners
import Gitdot.Lib.Numbering

namespace Gitdot
namespace Ci

open Lib Auth Numbering

/-- A row of `ci.builds`. -/
structure Build where
  id : Uuid
  number : ℤ
  repositoryId : Uuid
  refName : String
  commitSha : String
  trigger : BuildTrigger
  status : BuildStatus
  createdAt : Time
  deriving DecidableEq

/-- A call of `create`, with the id and the time that the columns default to. -/
structure CreateBuild where
  repositoryId : Uuid
  trigger : BuildTrigger
  commitSha : String
  refName : String
  id : Uuid
  now : Time
  deriving DecidableEq

/-- The row that `create` inserts and returns. -/
def CreateBuild.row (c : CreateBuild) (number : ℤ) : Build where
  id := c.id
  number := number
  repositoryId := c.repositoryId
  refName := c.refName
  commitSha := c.commitSha
  trigger := c.trigger
  status := .running
  createdAt := c.now

def buildScheme : Scheme CreateBuild Build Uuid where
  keyOf := CreateBuild.repositoryId
  row := CreateBuild.row
  key := Build.repositoryId
  number := Build.number
  key_row _ _ := rfl
  number_row _ _ := rfl

/-- `create` takes no lock. -/
def noLock : Option (Uuid → Unit) := none

/-! ### Reviews -/

/-- A row of `core.reviews`, with the repository it is of. -/
structure ReviewRow where
  repositoryId : Uuid
  review : Review

/-- A call of `create_review`. -/
structure CreateReview where
  repositoryId : Uuid
  authorId : Uuid
  targetBranch : String
  id : Uuid
  deriving DecidableEq

def CreateReview.row (c : CreateReview) (number : ℤ) : ReviewRow where
  repositoryId := c.repositoryId
  review :=
    { id := c.id, number := number, authorId := c.authorId, title := "", description := "",
      targetBranch := c.targetBranch, status := .draft, diffs := .empty, reviewers := [] }

def reviewScheme : Scheme CreateReview ReviewRow Uuid where
  keyOf := CreateReview.repositoryId
  row := CreateReview.row
  key := ReviewRow.repositoryId
  number r := r.review.number
  key_row _ _ := rfl
  number_row _ _ := rfl

/-! ### Runs -/

/-- **Build numbers.** In a run of creates from any table, if no create takes its
snapshot while another one of its repository is between its snapshot and its
end, then none is refused its number, each that returned added its row, and the
numbers of a repository go on from the highest one. -/
theorem builds_numbered {rows : List Build} {P : Db CreateBuild Build}
    (h : Reach (fun P => P = ⟨rows, []⟩) (next buildScheme noLock) (Alone buildScheme noLock) P) :
    (∀ call ∈ P.calls, call.stage ≠ .failed .uniqueViolation) ∧
      (∃ added, P.rows = rows ++ added ∧
        added.Perm (P.calls.filterMap (Call.row? buildScheme))) ∧
      ∀ repository, ∃ count : ℕ, numbers buildScheme repository P.rows =
        numbers buildScheme repository rows ++
          (List.range count).map fun i : ℕ => top buildScheme repository rows + 1 + (i : ℤ) := by
  have hnumbered := numbered_run h
  refine ⟨hnumbered.fine, added_run (h.mono fun _ _ _ => trivial), fun repository => ?_⟩
  obtain ⟨count, -, hnumbers⟩ := hnumbered.rows repository
  exact ⟨count, hnumbers⟩

/-- Two webhooks for one commit. -/
def webhook : CreateBuild := ⟨1, .pushToMain, "sha", "main", 5, 0⟩

def webhookAgain : CreateBuild := ⟨1, .pushToMain, "sha", "main", 6, 0⟩

/-- One after the other they get the numbers 1 and 2. -/
def webhooksApart : List (Move CreateBuild) :=
  [.start webhook, .start webhookAgain, .draw 0, .insert 0, .commit 0, .draw 1, .insert 1, .commit 1]

theorem builds_numbered_apart :
    (∀ call ∈ (play (next buildScheme noLock) webhooksApart ⟨[], []⟩).calls,
        call.stage ≠ .failed .uniqueViolation) ∧
      (play (next buildScheme noLock) webhooksApart ⟨[], []⟩).calls.map Call.stage =
        [.committed 1, .committed 2] := by
  have hrun : Reach (fun P : Db CreateBuild Build => P = ⟨[], []⟩) (next buildScheme noLock)
      (Alone buildScheme noLock) (play (next buildScheme noLock) webhooksApart ⟨[], []⟩) := by
    refine reach_play (.start rfl) ?_
    refine ⟨trivial, trivial, ?_, trivial, trivial, ?_, trivial, trivial, trivial⟩
    · rintro c hc -
      obtain rfl := Option.some.inj hc
      decide
    · rintro c hc -
      obtain rfl := Option.some.inj hc
      decide
  exact ⟨(builds_numbered hrun).1, by decide +kernel⟩

/-- Two creates that overlap draw the same number, and the second one fails. -/
theorem webhooks_collide :
    ¬ ∀ P : Db CreateBuild Build, Reach (fun P => P = ⟨[], []⟩) (next buildScheme noLock)
      (fun _ _ => True) P → ∀ call ∈ P.calls, call.stage ≠ .failed .uniqueViolation := by
  intro hall
  have hrun : Reach (fun P : Db CreateBuild Build => P = ⟨[], []⟩) (next buildScheme noLock)
      (fun _ _ => True) (play (next buildScheme noLock) [.start webhook, .start webhookAgain, .draw 0,
        .draw 1, .insert 0, .commit 0, .insert 1] ⟨[], []⟩) :=
    reach_play (.start rfl) guarded_true
  exact hall _ hrun ⟨webhookAgain, .failed .uniqueViolation⟩ (by decide +kernel) rfl

/-- **Review numbers.** Under the advisory lock, whatever hash it is on, the
numbers of reviews are consecutive in every run. -/
theorem reviews_numbered {hash : Uuid → ℤ} {rows : List ReviewRow} {P : Db CreateReview ReviewRow}
    (h : Reach (fun P => P = ⟨rows, []⟩) (next reviewScheme (some hash)) (fun _ _ => True) P) :
    (∀ call ∈ P.calls, call.stage ≠ .failed .uniqueViolation) ∧
      ∀ repository, ∃ count : ℕ, numbers reviewScheme repository P.rows =
        numbers reviewScheme repository rows ++
          (List.range count).map fun i : ℕ => top reviewScheme repository rows + 1 + (i : ℤ) := by
  have hnumbered := numbered_run (alone_locked h)
  refine ⟨hnumbered.fine, fun repository => ?_⟩
  obtain ⟨count, -, hnumbers⟩ := hnumbered.rows repository
  exact ⟨count, hnumbers⟩

/-- Two reviews of one repository: the second one waits for the lock until the first one
has committed. -/
def reviewsTogether : List (Move CreateReview) :=
  [.start ⟨1, 2, "main", 10⟩, .start ⟨1, 3, "main", 11⟩, .lock 0, .lock 1, .draw 0, .insert 0,
    .commit 0, .lock 1, .draw 1, .insert 1, .commit 1]

/-- A hash that sends all repositories to one lock. -/
def oneLock : Uuid → ℤ := fun _ => 7

theorem reviews_numbered_together :
    (∀ call ∈ (play (next reviewScheme (some oneLock)) reviewsTogether ⟨[], []⟩).calls,
        call.stage ≠ .failed .uniqueViolation) ∧
      (play (next reviewScheme (some oneLock)) reviewsTogether ⟨[], []⟩).calls.map Call.stage =
        [.committed 1, .committed 2] := by
  have hrun : Reach (fun P : Db CreateReview ReviewRow => P = ⟨[], []⟩)
      (next reviewScheme (some oneLock)) (fun _ _ => True)
      (play (next reviewScheme (some oneLock)) reviewsTogether ⟨[], []⟩) :=
    reach_play (.start rfl) guarded_true
  exact ⟨(reviews_numbered hrun).1, rfl⟩

end Ci
end Gitdot
