/-
# A merge refused for a conflict

`merge_review_diff` rebases the selected diffs one after the other and writes
each rebased commit before it tries the next, so a conflict finds the diffs
before it rewritten. The error says that the review has to be updated first;
the rows and refs are as they were exactly if it is the first selected diff
that conflicts (`refused_merge_leaves_no_trace_iff`).

Key definitions: `FirstConflicts`.
Key theorems: `refused_merge_leaves_no_trace_iff`.
-/
import Gitdot.Review.Run

namespace Gitdot

open Lib Prog

variable {g : Git} {s : RepoState} {request : MergeReviewDiffRequest}

theorem MergeInput.unique {r r' : Review} {p p' : Diff × Revision} {l l' : List (Diff × Revision)}
    {t t' : Sha} (h : MergeInput s request r p l t) (h' : MergeInput s request r' p' l' t') :
    r = r' ∧ p = p' ∧ t = t' := by
  obtain rfl : r = r' := Option.some.inj (h.found.symm.trans h'.found)
  obtain rfl : t = t' := Option.some.inj (h.target.symm.trans h'.target)
  have hdiff : p.1 = p'.1 := (List.cons.inj (h.selected.trans h'.selected.symm)).1
  have hrev : some p.2 = some p'.2 := by
    rw [← h.latest p (.head _), ← h'.latest p' (.head _), hdiff]
  exact ⟨rfl, Prod.ext hdiff (Option.some.inj hrev), rfl⟩

theorem RebaseConflict.partly {newParentSha : Sha} {sel : List (Diff × Revision)} {f f' : Focus}
    {k : ℕ} (h : RebaseConflict g newParentSha sel f k f') :
    RebasePartly g newParentSha sel f f' := by
  induction h with
  | here => exact .stop
  | later hpick _ ih => exact .step hpick ih

/-- The first diff is rewritten as soon as a later one conflicts. -/
theorem RebaseConflict.first_rewritten {newParentSha : Sha} {d : Diff} {v : Revision}
    {rest : List (Diff × Revision)} {f f' : Focus} {k : ℕ}
    (h : RebaseConflict g newParentSha ((d, v) :: rest) f (k + 1) f')
    (hsel : Selects f ((d, v) :: rest)) :
    ∃ new, g.cherryPickCommit v.commitHash newParentSha = .ok new ∧
      f'.diff? d.position = some (d.putRevision ⟨v.number, new, newParentSha⟩) := by
  cases h with
  | later hpick h =>
    refine ⟨_, hpick, ?_⟩
    rw [h.partly.diff?_of_not_selected (List.nodup_cons.mp hsel.nodup).1]
    exact Focus.diff?_setDiff_self (d.putRevision ⟨v.number, _, newParentSha⟩)

/-- The first of the diffs a merge selects conflicts with the target branch. -/
def FirstConflicts (g : Git) (s : RepoState) (request : MergeReviewDiffRequest) : Prop :=
  ∃ review first rest targetSha m, MergeInput s request review first rest targetSha ∧
    g.cherryPickCommit first.2.commitHash targetSha = .error (.mergeConflict m)

/-- **Refusal.** A merge of an open review that is refused for a conflict
leaves every row and every ref as it was exactly if the conflict is on the
first diff it selects. -/
theorem refused_merge_leaves_no_trace_iff {plan : List Bool} {m : String}
    (hopen : (s.getReviewByNumber request.number).map Review.status = some .open)
    (hrun : (call g plan (mergeReviewDiff request) s).1 = .error (.diffNotMergeable m)) :
    ((call g plan (mergeReviewDiff request) s).2.reviews = s.reviews ∧
      (call g plan (mergeReviewDiff request) s).2.refs = s.refs) ↔ FirstConflicts g s request := by
  have hout := step_mergeReviewDiff (g := g) (s := s) plan request
  rw [hrun] at hout
  generalize (call g plan (mergeReviewDiff request) s).2 = s' at hout
  cases hout with
  | refused e he =>
    obtain ⟨review, hfound, hstatus⟩ := Option.map_eq_some_iff.mp hopen
    exact absurd hstatus (he trivial review hfound)
  | landed e hi h he _ => exact absurd trivial he
  | marking e hi h he _ _ => exact absurd trivial he
  | marked e hi h he => exact absurd trivial he
  | closed e hi h he => exact absurd trivial he
  | rebasing e hi hne hpart hwhy he =>
    rename_i r first rest targetSha f
    obtain ⟨k, hconf⟩ := he trivial
    cases k with
    | zero =>
      cases hconf with
      | here hpick =>
        rw [RepoState.put_focus hi.get?]
        exact iff_of_true ⟨rfl, rfl⟩ ⟨_, _, _, _, _, hi, hpick⟩
    | succ k =>
      obtain ⟨d, v⟩ := first
      obtain ⟨new, hpick, hd⟩ := hconf.first_rewritten hi.selects
      refine iff_of_false (fun hsame => hne ?_) ?_
      · -- the row of the first diff now names the tip as its parent
        have hid : f.review.id = r.id := hpart.id_eq
        have hget := RepoState.get?_put_self (s := s) (f := f)
        rw [hsame.1, hid, hi.get?] at hget
        have hdiff : (s.focus r).diff? d.position = f.diff? d.position := by
          rw [Focus.diff?, Focus.diff?, ← Option.some.inj hget]
          rfl
        rw [hi.selects.head.1, hd] at hdiff
        have hv := Table.get?_of_last? hi.selects.head.2
        rw [Option.some.inj hdiff, key_revision, Diff.get?_putRevision, if_pos rfl] at hv
        exact congrArg Revision.parentHash (Option.some.inj hv)
      · rintro ⟨_, _, _, _, _, hi', hpick'⟩
        obtain ⟨rfl, rfl, rfl⟩ := hi.unique hi'
        cases hpick.symm.trans hpick'

/-! ### A conflict on the second diff

Commits 2 and 3 are pushed on 1, and 4 on `main` moves it away from 1. Commit
5 is 2 picked onto 4; 3 conflicts with it. -/

/-- The commits of the example. -/
def conflictGit : Git :=
  Git.ofHistory [⟨[], 0, 0⟩, ⟨[], 1, 1⟩, ⟨[1], 2, 2⟩, ⟨[2], 3, 3⟩, ⟨[1], 4, 4⟩, ⟨[4], 5, 2⟩] (by decide)

/-- The open review of 2 and 3 after `main` has moved to 4. -/
def conflictState : RepoState :=
  play (step conflictGit)
    [.createReview 5 [] ⟨"owner", "repo", "main", none, 3, 9⟩,
      .publishReviewDiff [] ⟨"owner", "repo", 1, 1⟩, .publishReviewDiff [] ⟨"owner", "repo", 1, 2⟩,
      .publishReview [] ⟨"owner", "repo", 1⟩, .push "main" 4]
    (fresh 7 fun branch => if branch = "main" then some 1 else none)

theorem conflictState_open :
    (conflictState.getReviewByNumber 1).map Review.status = some .open := by decide +kernel

theorem conflictState_refused :
    (call conflictGit [] (mergeReviewDiff ⟨"owner", "repo", 1, 2⟩) conflictState).1 =
      .error (.diffNotMergeable ("conflict rebasing diff at position 2 onto target branch; " ++
        "update the review to resolve conflicts before merging")) := by decide +kernel

theorem refused_merge_leaves_no_trace_iff_conflictState :
    ((call conflictGit [] (mergeReviewDiff ⟨"owner", "repo", 1, 2⟩) conflictState).2.reviews =
        conflictState.reviews ∧
      (call conflictGit [] (mergeReviewDiff ⟨"owner", "repo", 1, 2⟩) conflictState).2.refs =
        conflictState.refs) ↔
      FirstConflicts conflictGit conflictState ⟨"owner", "repo", 1, 2⟩ :=
  refused_merge_leaves_no_trace_iff conflictState_open conflictState_refused

/-- A refused merge does leave a trace. -/
theorem not_refused_merge_leaves_no_trace :
    ¬ ∀ (g : Git) (s : RepoState) (request : MergeReviewDiffRequest) (plan : List Bool) (m : String),
      (s.getReviewByNumber request.number).map Review.status = some .open →
      (call g plan (mergeReviewDiff request) s).1 = .error (.diffNotMergeable m) →
      (call g plan (mergeReviewDiff request) s).2.reviews = s.reviews ∧
        (call g plan (mergeReviewDiff request) s).2.refs = s.refs := by
  intro h
  have hrows := (h _ _ _ _ _ conflictState_open conflictState_refused).1
  exact absurd hrows (by decide +kernel)

end Gitdot
