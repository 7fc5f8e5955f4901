/-
# Merged diffs and later pushes

`process_review_update` numbers the commits that are not on the target branch
from position 1, whatever diffs are merged, and writes to the diff it finds
there. A push keeps the merged diffs if it numbers onto each of them just the
commit and parent that diff stores already, and a push that succeeds keeps
them only then (`merged_diffs_kept_iff`).

Key definitions: `MergedKept`, `RepeatsMerged`.
Key theorems: `merged_diffs_kept_iff`.
-/
import Gitdot.Review.Run

namespace Gitdot

open Lib Prog

/-- Every merged diff of `s` is still merged in `s'`, with the same revisions. -/
def MergedKept (s s' : RepoState) : Prop :=
  ∀ review ∈ s.reviews.rows, ∃ review' ∈ s'.reviews.get? review.id,
    ∀ d ∈ review.diffs.rows, d.status = .merged →
      ∃ d' ∈ review'.diffs.get? d.position, d'.status = .merged ∧ d'.revisions = d.revisions

instance (s s' : RepoState) : Decidable (MergedKept s s') :=
  inferInstanceAs (Decidable (∀ review ∈ s.reviews.rows, ∃ review' ∈ s'.reviews.get? review.id,
    ∀ d ∈ review.diffs.rows, d.status = .merged →
      ∃ d' ∈ review'.diffs.get? d.position, d'.status = .merged ∧ d'.revisions = d.revisions))

/-- The latest revision of each merged diff that an update reaches is the
commit and the parent it would put there. -/
def RepeatsMerged (g : Git) (s : RepoState) (request : ProcessReviewRequest) : Prop :=
  ∀ number review targetSha commits, UpdateInput g s request number review targetSha commits →
    ∀ n ∈ numbered 1 targetSha commits, ∀ d, review.diffs.get? n.position = some d →
      d.status = .merged →
      ∃ v, d.latest? = some v ∧ v.commitHash = n.commit.sha ∧ v.parentHash = n.previousSha

section

variable {g : Git} {s : RepoState} {request : ProcessReviewRequest}

theorem MergedKept.refl (s : RepoState) : MergedKept s s :=
  fun review h => ⟨review, Table.get?_key h, fun d hd hm => ⟨d, Table.get?_key hd, hm, rfl⟩⟩

/-- A diff that has the pushed commit as its latest revision already does not
change. -/
theorem PushedDiff.eq_self {n : Numbered} {d d' : Diff} (h : PushedDiff g n (some d) d')
    (hstored : ∃ v, d.latest? = some v ∧ v.commitHash = n.commit.sha ∧
      v.parentHash = n.previousSha) : d' = d := by
  obtain ⟨v, hv, hcommit, hparent⟩ := hstored
  cases h with
  | unchanged hw _ =>
    cases hv.symm.trans hw
    have hrow : (⟨v.number, n.commit.sha, n.previousSha⟩ : Revision) = v := by
      rw [← hcommit, ← hparent]
    unfold Diff.putRevision
    rw [hrow, Table.upsert_self (a := v) (Table.get?_of_last? hv)]
  | revised hw hp =>
    cases hv.symm.trans hw
    exact absurd (by rw [hcommit]) hp
  | reopened hw hp =>
    cases hv.symm.trans hw
    exact absurd (by rw [hcommit]) hp

/-- However far a push that repeats the merged diffs gets, it keeps them. -/
theorem mergedKept_of_partly {number : ℤ} {review : Review} {targetSha : Sha}
    {commits : List Commit} {f f' : Focus} (hrep : RepeatsMerged g s request)
    (hi : UpdateInput g s request number review targetSha commits)
    (h : PushPartly g 1 targetSha commits (s.focus review) f) (hf : f'.review = f.review) :
    MergedKept s (s.put f') := by
  have hid : f'.review.id = review.id := by rw [hf, h.id_eq]; rfl
  intro r hr
  rw [RepoState.get?_put, hid]
  split_ifs with he
  · obtain rfl : review = r := Option.some.inj (hi.get?.symm.trans (he ▸ Table.get?_key hr))
    refine ⟨_, rfl, fun d hd hmerged => ⟨d, ?_, hmerged, rfl⟩⟩
    have hget : review.diffs.get? d.position = some d := Table.get?_key hd
    have hdiff : f'.review.diffs.get? d.position = f.diff? d.position := by rw [hf]; rfl
    rw [hdiff]
    rcases h.diff? d.position with hsame | ⟨n, hn, hpos, d', hd', hpushed⟩
    · exact hsame.trans hget
    · rw [RepoState.focus_diff?, hget] at hpushed
      exact hd'.trans (congrArg some (hpushed.eq_self
        (hrep _ _ _ _ hi n hn d (hpos ▸ hget) hmerged)))
  · exact MergedKept.refl s r hr

/-- **Merged diffs.** An update that numbers onto every merged diff what it
stores already keeps the merged diffs, even if it fails on the way; and an
update that succeeds keeps them only then. -/
theorem merged_diffs_kept_iff (g : Git) (s : RepoState) (request : ProcessReviewRequest)
    (plan : List Bool) :
    (RepeatsMerged g s request → MergedKept s (call g plan (processReviewUpdate request) s).2) ∧
      ∀ review, (call g plan (processReviewUpdate request) s).1 = .ok review →
        (MergedKept s (call g plan (processReviewUpdate request) s).2 ↔
          RepeatsMerged g s request) := by
  have hout := step_processReviewUpdate (g := g) (s := s) plan request
  generalize call g plan (processReviewUpdate request) s = out at hout
  obtain ⟨r, s'⟩ := out
  have hkeeps : RepeatsMerged g s request → MergedKept s s' := by
    intro hrep
    cases hout with
    | refused => exact .refl _
    | stopped hi h => exact mergedKept_of_partly hrep hi h.partly rfl
    | blocked _ hi _ h => exact mergedKept_of_partly hrep hi h rfl
    | head _ hi h => exact mergedKept_of_partly hrep hi (Focus.pushAll_partly h) rfl
    | late _ hi h => exact mergedKept_of_partly hrep hi (Focus.pushAll_partly h) rfl
    | done hi h => exact mergedKept_of_partly hrep hi (Focus.pushAll_partly h) rfl
  refine ⟨hkeeps, fun review hok => ⟨fun hkept => ?_, hkeeps⟩⟩
  obtain rfl : r = .ok review := hok
  cases hout with
  | done hi h =>
    rename_i number review' targetSha commits f
    intro _ _ _ _ hi' n hn d hd hmerged
    obtain ⟨-, rfl, rfl, rfl⟩ := hi.unique hi'
    have hid : f.review.id = review'.id := (Focus.pushAll_partly h).id_eq
    obtain ⟨r', hr', hr⟩ := hkept _ (Table.mem_rows_of_get? hi.get?)
    have hget := RepoState.get?_put_self (s := s)
      (f := f.setRef (getHeadRef review'.id.short) request.newSha)
    rw [Focus.setRef_review, hid, Option.mem_def.mp hr'] at hget
    obtain rfl : r' = f.review := Option.some.inj hget
    obtain ⟨d', hd', -, hrevisions⟩ := hr d (Table.mem_rows_of_get? hd) hmerged
    -- the position is settled, so the revisions that were kept end in the commit
    obtain ⟨e, m, he, hlatest, -, -⟩ := settled_of_pushAll h n hn
    have hpos : d.position = n.position := Table.key_of_get? hd
    rw [hpos] at hd'
    obtain rfl : d' = e := Option.some.inj (hd'.symm.trans he)
    exact ⟨_, (congrArg Table.last? hrevisions).symm.trans hlatest, rfl, rfl⟩

end

/-! ### A push after a partial merge

Commits 2 and 3 are pushed on 1 and the first is merged, so `main` is at 2. -/

/-- The commits of the example. -/
def partialGit : Git := .stack 2

/-- The review of 2 and 3 after its first diff is merged. -/
def partialState : RepoState :=
  play (step partialGit)
    [.createReview 5 [] ⟨"owner", "repo", "main", none, 3, 9⟩,
      .publishReviewDiff [] ⟨"owner", "repo", 1, 1⟩, .publishReviewDiff [] ⟨"owner", "repo", 1, 2⟩,
      .publishReview [] ⟨"owner", "repo", 1⟩, .mergeReviewDiff [] ⟨"owner", "repo", 1, 1⟩]
    (fresh 7 fun branch => if branch = "main" then some 1 else none)

/-- Pushing the same head again reopens the merged diff with the second
commit as its new revision. -/
theorem not_merged_diffs_kept :
    ¬ ∀ (g : Git) (s : RepoState) (request : ProcessReviewRequest) (plan : List Bool),
      MergedKept s (call g plan (processReviewUpdate request) s).2 := by
  intro h
  exact absurd (h partialGit partialState ⟨"owner", "repo", "main", some 1, 3, 9⟩ [])
    (by decide +kernel)

end Gitdot
