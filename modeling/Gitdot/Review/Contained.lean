/-
# Merged diffs and their target branch

A fast-forward moves the target branch to the commit of the last selected
diff and marks them all, and an update writes to merged diffs as to others.
The latest revision of every merged diff is on its target branch in the runs
in which a fast-forward goes to a descendant of the tip and of all the diffs
it marks, and an update numbers onto merged diffs only commits that are on
the branch (`merged_diffs_contained`): whatever calls fail in such a run.

Key definitions: `MergedContained`, `KeepsContained`.
Key theorems: `contained_pushStep`, `contained_mergeStep`,
`merged_diffs_contained`.
-/
import Gitdot.Review.Run

namespace Gitdot

open Lib Prog

/-- The latest commit of each merged diff is on the target branch. -/
def Contained (g : Git) (refs : Refs) (r : Review) : Prop :=
  ∀ d ∈ r.diffs.rows, d.status = .merged → ∀ v ∈ d.latest?,
    ∃ tip ∈ refs (getTargetRef r.targetBranch), g.Anc v.commitHash tip

/-- Merged means contained. -/
def MergedContained (g : Git) (s : RepoState) : Prop :=
  ∀ r ∈ s.reviews.rows, Contained g s.refs r

instance (g : Git) (s : RepoState) [∀ a b, Decidable (g.Anc a b)] :
    Decidable (MergedContained g s) :=
  inferInstanceAs (Decidable (∀ r ∈ s.reviews.rows, ∀ d ∈ r.diffs.rows, d.status = .merged →
    ∀ v ∈ d.latest?, ∃ tip ∈ s.refs (getTargetRef r.targetBranch), g.Anc v.commitHash tip))

/-- A push to a branch goes to a descendant of its tip. -/
def PushForward (g : Git) (s : RepoState) (branch : String) (sha : Sha) : Prop :=
  ∀ tip ∈ s.refs (getTargetRef branch), g.Anc tip sha

/-- Direct pushes are fast-forwards. -/
def ForwardPushes (g : Git) (s : RepoState) : Event → Prop
  | .push branch sha => PushForward g s branch sha
  | _ => True

/-- Each commit that an update numbers onto a merged diff is on the target
branch of the review. -/
def UpdateContained (g : Git) (s : RepoState) (request : ProcessReviewRequest) : Prop :=
  ∀ i ∈ updateInput g s request, ∀ n ∈ numbered 1 i.2.2.1 i.2.2.2,
    ∀ d ∈ i.2.1.diffs.get? n.position, d.status = .merged →
      ∃ tip ∈ s.refs (getTargetRef i.2.1.targetBranch), g.Anc n.commit.sha tip

/-- If a merge fast-forwards, the commit of its last diff descends from the tip
and from the commits of all the diffs it selects. -/
def ForwardContained (g : Git) (s : RepoState) (request : MergeReviewDiffRequest) : Prop :=
  ∀ i ∈ mergeInput s request, i.2.2.2 = i.2.1.2.parentHash →
    g.Anc i.2.2.2 (i.2.2.1.getLastD i.2.1).2.commitHash ∧
      ∀ p ∈ i.2.1 :: i.2.2.1, g.Anc p.2.commitHash (i.2.2.1.getLastD i.2.1).2.commitHash

/-- The guard of the runs in which merged stays contained. -/
def KeepsContained (g : Git) (s : RepoState) : Event → Prop
  | .processReviewUpdate _ request => UpdateContained g s request
  | .mergeReviewDiff _ request => ForwardContained g s request
  | .push branch sha => PushForward g s branch sha
  | _ => True

instance (g : Git) (s : RepoState) [∀ a b, Decidable (g.Anc a b)] :
    (e : Event) → Decidable (KeepsContained g s e)
  | .processReviewUpdate _ request => inferInstanceAs (Decidable (∀ i ∈ updateInput g s request,
    ∀ n ∈ numbered 1 i.2.2.1 i.2.2.2, ∀ d ∈ i.2.1.diffs.get? n.position, d.status = .merged →
      ∃ tip ∈ s.refs (getTargetRef i.2.1.targetBranch), g.Anc n.commit.sha tip))
  | .mergeReviewDiff _ request => inferInstanceAs (Decidable (∀ i ∈ mergeInput s request,
    i.2.2.2 = i.2.1.2.parentHash → g.Anc i.2.2.2 (i.2.2.1.getLastD i.2.1).2.commitHash ∧
      ∀ p ∈ i.2.1 :: i.2.2.1, g.Anc p.2.commitHash (i.2.2.1.getLastD i.2.1).2.commitHash))
  | .push branch sha => inferInstanceAs (Decidable (∀ tip ∈ s.refs (getTargetRef branch),
    g.Anc tip sha))
  | .createReview .. | .publishReview .. | .publishReviewDiff .. | .updateReview ..
  | .updateReviewDiff .. => .isTrue trivial

section

variable {g : Git} {s s' : RepoState} {f f' : Focus} {refs refs' : Refs} {r : Review}

/-! ### Branches that only move forward -/

/-- Every branch is where it was or at a descendant. -/
def Forward (g : Git) (refs refs' : Refs) : Prop :=
  ∀ branch, ∀ tip ∈ refs (getTargetRef branch), ∃ tip' ∈ refs' (getTargetRef branch), g.Anc tip tip'

theorem forward_of_eq (h : ∀ branch, refs' (getTargetRef branch) = refs (getTargetRef branch)) :
    Forward g refs refs' := fun branch tip htip => ⟨tip, (h branch).trans htip, .refl _⟩

theorem forward_set {branch : String} {sha : Sha}
    (h : ∀ tip ∈ refs (getTargetRef branch), g.Anc tip sha) :
    Forward g refs (refs.set (getTargetRef branch) sha) := fun b tip htip => by
  by_cases hb : b = branch
  · subst hb
    exact ⟨sha, Refs.set_self _ _ _, h tip htip⟩
  · have hne : getTargetRef b ≠ getTargetRef branch := fun he => hb (RefName.heads.inj he)
    exact ⟨tip, (Refs.set_of_ne _ _ hne).trans htip, .refl _⟩

theorem Contained.forward (h : Contained g refs r) (hfwd : Forward g refs refs') :
    Contained g refs' r := fun d hd hm v hv => by
  obtain ⟨tip, htip, hanc⟩ := h d hd hm v hv
  obtain ⟨tip', htip', hanc'⟩ := hfwd _ tip htip
  exact ⟨tip', htip', hanc.trans hanc'⟩

theorem contained_put (h : MergedContained g s) (hfwd : Forward g s.refs f.refs)
    (hf : Contained g f.refs f.review) : MergedContained g (s.put f) := by
  intro r hr
  rw [RepoState.put_refs]
  exact RepoState.forall_put (P := Contained g f.refs) (fun r hr => (h r hr).forward hfwd) hf r hr

/-- Each merged diff of `f'` is a merged diff of `f` with the same latest
revision, or its latest commit is on the branch. -/
theorem contained_of_diffs (h : Contained g refs f.review) (hfwd : Forward g refs refs')
    (hbranch : f'.review.targetBranch = f.review.targetBranch)
    (hd : ∀ k d', f'.diff? k = some d' → d'.status = .merged →
      (∃ d, f.diff? k = some d ∧ d.status = .merged ∧ d.latest? = d'.latest?) ∨
      ∀ v ∈ d'.latest?, ∃ tip ∈ refs' (getTargetRef f.review.targetBranch), g.Anc v.commitHash tip) :
    Contained g refs' f'.review := by
  intro d' hd' hm v hv
  rw [hbranch]
  rcases hd d'.position d' (Focus.diff?_of_mem hd') hm with ⟨d, hget, hdm, hlatest⟩ | hon
  · exact h.forward hfwd d (Table.mem_rows_of_get? hget) hdm v (hlatest ▸ hv)
  · exact hon v hv

/-! ### Pushes -/

/-- A push leaves a diff merged only with the numbered commit as its latest. -/
theorem PushedDiff.latest_of_merged {n : Numbered} {old : Option Diff} {d' : Diff}
    (h : PushedDiff g n old d') (hm : d'.status = .merged) :
    ∃ d number, old = some d ∧ d.status = .merged ∧
      d'.latest? = some ⟨number, n.commit.sha, n.previousSha⟩ := by
  cases h with
  | created => cases hm
  | first => cases hm
  | unchanged hv => exact ⟨_, _, rfl, hm, Diff.latest?_putRevision hv le_rfl⟩
  | revised hv => exact ⟨_, _, rfl, hm, Diff.latest?_putRevision hv (Int.le_add_one le_rfl)⟩
  | reopened => cases hm

theorem contained_pushPartly {p : ℤ} {prev : Sha} {commits : List Commit}
    (h : Contained g f.refs f.review) (hpart : PushPartly g p prev commits f f')
    (hon : ∀ n ∈ numbered p prev commits, ∀ d, f.diff? n.position = some d → d.status = .merged →
      ∃ tip ∈ f.refs (getTargetRef f.review.targetBranch), g.Anc n.commit.sha tip) :
    Contained g f.refs f'.review := by
  have hbranch : f'.review.targetBranch = f.review.targetBranch := by rw [hpart.review]
  refine contained_of_diffs h (forward_of_eq fun _ => rfl) hbranch fun k d' hd' hm => ?_
  rcases hpart.diff? k with hsame | ⟨n, hn, hk, d'', hd'', hpushed⟩
  · exact .inl ⟨d', hsame ▸ hd', hm, rfl⟩
  · obtain rfl : d' = d'' := Option.some.inj (hd'.symm.trans hd'')
    obtain ⟨d, number, hold, hdm, hlatest⟩ := hpushed.latest_of_merged hm
    refine .inr fun v hv => ?_
    obtain rfl : v = _ := Option.some.inj (hv.symm.trans hlatest)
    exact hon n hn d (hk ▸ hold) hdm

theorem contained_pushStep {request : ProcessReviewRequest} {draw : Option Uuid}
    (h : MergedContained g s) (hon : draw = none → UpdateContained g s request)
    (hstep : PushStep g s request draw s') : MergedContained g s' := by
  have hpart : ∀ {review targetSha commits f}, PushBase g s request draw review targetSha commits →
      PushPartly g 1 targetSha commits (s.focus review) f → Contained g s.refs f.review := by
    intro review targetSha commits f hb hpart
    cases hb with
    | update hi =>
      refine contained_pushPartly (f := s.focus _) (h _ (Table.mem_rows_of_get? hi.get?)) hpart ?_
      exact fun n hn d hd hm => hon rfl _ (updateInput_eq_some_iff.mpr hi) n hn d hd hm
    | create =>
      exact contained_pushPartly (f := s.focus _) (fun d hd => absurd hd List.not_mem_nil) hpart
        fun n hn d hd => nomatch (show (none : Option Diff) = some d from hd)
  cases hstep with
  | nothing => exact h
  | partly hb h' =>
    have hfwd : Forward g s.refs _ := forward_of_eq h'.heads
    exact contained_put h hfwd ((hpart hb h').forward hfwd)
  | through hb hall =>
    have h' := Focus.pushAll_partly hall
    refine contained_put h ?_ ((hpart hb h').forward ?_)
    all_goals exact forward_of_eq fun branch =>
      (Focus.setHeadRef_targetRef _ _ branch).trans (h'.heads branch)

/-! ### Merges -/

/-- A landing ends at a descendant of the tip and of every selected commit,
as stored once landed. -/
theorem landing_contained {request : MergeReviewDiffRequest} {review : Review}
    {first : Diff × Revision} {rest : List (Diff × Revision)} {targetSha commit : Sha}
    (hi : MergeInput s request review first rest targetSha) (hff : ForwardContained g s request)
    (h : Landing g (s.focus review) targetSha first rest f commit) :
    g.Anc targetSha commit ∧ ∀ p ∈ first :: rest, ∃ d, f.diff? p.1.position = some d ∧
      ∀ v ∈ d.latest?, g.Anc v.commitHash commit := by
  rcases h with ⟨htip, rfl, rfl⟩ | ⟨-, hall⟩
  · obtain ⟨hanc, hsel⟩ := hff _ (mergeInput_eq_some_iff.mpr hi) htip
    refine ⟨hanc, fun p hp => ⟨p.1, hi.selects.diff? p hp, fun v hv => ?_⟩⟩
    obtain rfl : v = p.2 := Option.some.inj (hv.symm.trans (hi.latest p hp))
    exact hsel p hp
  · obtain ⟨hanc, hsel⟩ := rebaseAll_landed hi.selects hall
    refine ⟨hanc, fun p hp => ?_⟩
    obtain ⟨parent, new, -, hd, hnew⟩ := hsel p hp
    refine ⟨_, hd, fun v hv => ?_⟩
    obtain rfl : v = _ :=
      Option.some.inj (hv.symm.trans (Diff.latest?_putRevision (hi.latest p hp) le_rfl))
    exact hnew

/-- Rebasing makes no diff merged and touches no merged one. -/
theorem contained_rebasePartly {request : MergeReviewDiffRequest} {review : Review}
    {first : Diff × Revision} {rest : List (Diff × Revision)} {targetSha p : Sha}
    (h : Contained g s.refs review) (hi : MergeInput s request review first rest targetSha)
    (hpart : RebasePartly g p (first :: rest) (s.focus review) f) : Contained g s.refs f.review := by
  refine contained_of_diffs (f := s.focus review) h (forward_of_eq fun _ => rfl)
    (by rw [hpart.review]) fun k d' hd' hm => .inl ?_
  rcases hpart.diff? k with hsame | ⟨q, hq, -, parent, new, -, hd⟩
  · exact ⟨d', hsame ▸ hd', hm, rfl⟩
  · obtain rfl : d' = _ := Option.some.inj (hd'.symm.trans hd)
    exact absurd hm (hi.mem_selected hq).2.2

theorem contained_moved {request : MergeReviewDiffRequest} {review : Review}
    {first : Diff × Revision} {rest done todo : List (Diff × Revision)} {targetSha commit : Sha}
    (h : Contained g s.refs review) (hi : MergeInput s request review first rest targetSha)
    (hff : ForwardContained g s request)
    (hland : Landing g (s.focus review) targetSha first rest f commit)
    (hsel : first :: rest = done ++ todo) (status : Option ReviewStatus) :
    Forward g s.refs (((f.moveTarget commit).markAll done).setStatus status).refs ∧
      Contained g (((f.moveTarget commit).markAll done).setStatus status).refs
        (((f.moveTarget commit).markAll done).setStatus status).review := by
  obtain ⟨hanc, hlanded⟩ := landing_contained hi hff hland
  have hpart : Contained g s.refs f.review ∧
      ∀ branch, f.refs (getTargetRef branch) = s.refs (getTargetRef branch) := by
    rcases hland with ⟨-, rfl, -⟩ | ⟨-, hall⟩
    · exact ⟨h, fun _ => rfl⟩
    · have hp := Focus.rebaseAll_partly hall
      exact ⟨contained_rebasePartly h hi hp, hp.heads⟩
  have hbranch : f.review.targetBranch = review.targetBranch := by rw [hland.review]
  have hrefs : (((f.moveTarget commit).markAll done).setStatus status).refs =
      f.refs.set (getTargetRef review.targetBranch) commit := by
    rw [Focus.setStatus_refs, Focus.markAll_refs, Focus.moveTarget, hbranch]
    rfl
  have hfwd : Forward g f.refs (f.refs.set (getTargetRef review.targetBranch) commit) :=
    forward_set fun tip htip => by
      rw [hpart.2, hi.target] at htip
      exact Option.some.inj htip ▸ hanc
  rw [hrefs]
  constructor
  · intro branch tip htip
    exact hfwd branch tip ((hpart.2 branch).trans htip)
  · have hmark := Focus.markAll_review done (f.moveTarget commit)
    refine contained_of_diffs (f := f) (hpart.1.forward (forward_of_eq hpart.2)) hfwd
      (by rw [Focus.setStatus, hmark]; rfl) fun k d' hd' hm => ?_
    rw [Focus.setStatus_diff?, Focus.diff?_markAll] at hd'
    split_ifs at hd' with hk
    · -- a diff marked by this merge
      obtain ⟨p, hp, hpos⟩ := List.mem_map.mp hk
      obtain ⟨d, hd, hlatest⟩ := hlanded p (hsel ▸ List.mem_append_left _ hp)
      obtain ⟨e, he, rfl⟩ := Option.map_eq_some_iff.mp hd'
      obtain rfl : d = e := Option.some.inj (hd.symm.trans (hpos ▸ he))
      refine .inr fun v hv => ⟨commit, ?_, hlatest v hv⟩
      rw [hbranch]
      exact Refs.set_self _ _ _
    · exact .inl ⟨d', hd', hm, rfl⟩

theorem contained_mergeStep {request : MergeReviewDiffRequest} {F : Call → RepoState → Prop}
    (h : MergedContained g s) (hff : ForwardContained g s request)
    (hstep : MergeStep g s request F s') : MergedContained g s' := by
  cases hstep with
  | nothing => exact h
  | rebasing hi _ hpart =>
    have hreview := h _ (Table.mem_rows_of_get? hi.get?)
    refine contained_put h ?_ ((contained_rebasePartly hreview hi hpart).forward ?_)
    all_goals exact forward_of_eq hpart.heads
  | moved status hi hland hsel =>
    have hreview := h _ (Table.mem_rows_of_get? hi.get?)
    obtain ⟨hfwd, hmoved⟩ := contained_moved hreview hi hff hland hsel status
    exact contained_put h hfwd hmoved

/-! ### Runs -/

theorem contained_editStep (h : MergedContained g s) (hstep : EditStep s s') :
    MergedContained g s' := by
  have hfwd : Forward g s.refs s.refs := forward_of_eq fun _ => rfl
  cases hstep with
  | nothing => exact h
  | published hr =>
    have hreview := h _ (Table.mem_rows_of_get? hr)
    exact contained_put h hfwd hreview
  | texts _ _ hr =>
    have hreview := h _ (Table.mem_rows_of_get? hr)
    exact contained_put h hfwd hreview
  | publishedDiff hr _ hd =>
    refine contained_put h hfwd (contained_of_diffs (f := s.focus _)
      (h _ (Table.mem_rows_of_get? hr)) hfwd rfl fun k d' hd' hm => .inl ?_)
    rw [Focus.diff?_setDiff] at hd'
    split_ifs at hd'
    · cases hd'
      cases hm
    · exact ⟨d', hd', hm, rfl⟩
  | message _ hr hd =>
    rename_i review d message
    refine contained_put h hfwd (contained_of_diffs (f := s.focus _)
      (h _ (Table.mem_rows_of_get? hr)) hfwd rfl fun k d' hd' hm => .inl ?_)
    rw [Focus.diff?_setDiff] at hd'
    split_ifs at hd' with hk
    · cases hd'
      exact ⟨d, hk ▸ Table.get?_key hd, hm, rfl⟩
    · exact ⟨d', hd', hm, rfl⟩

theorem contained_updateRef {branch : String} {sha : Sha} (h : MergedContained g s)
    (hfwd : PushForward g s branch sha) :
    MergedContained g (s.updateRef (getTargetRef branch) sha) :=
  fun r hr => (h r hr).forward (forward_set hfwd)

/-- One event that meets the guard keeps merged contained. -/
theorem contained_step {e : Event} (h : MergedContained g s) (hg : KeepsContained g s e) :
    MergedContained g (step g e s) :=
  step_induct
    (fun _ _ _ _ _ => contained_pushStep h nofun)
    (fun _ _ he _ => by subst he; exact contained_pushStep h fun _ => hg)
    (fun _ _ he _ => by subst he; exact contained_mergeStep h hg)
    (fun _ => contained_editStep h) fun _ _ he => by subst he; exact contained_updateRef h hg

/-- **Merged means contained**, in every state of a run whose fast-forwards
and updates meet the guard. -/
theorem merged_diffs_contained (g : Git) (s : RepoState)
    (h : Reach Fresh (step g) (KeepsContained g) s) : MergedContained g s := by
  refine h.invariant (I := MergedContained g) ?_ fun s e => contained_step
  rintro _ ⟨_, _, rfl⟩ r hr
  cases hr

end

/-! ### Two runs

Commits 2 and 3 are pushed on the root 1. Commit 4 is on 2 and 5 is 3 picked
onto it; 6 is on 1 with another patch than 2. -/

/-- The commits of the two runs. -/
def twoRunsGit : Git :=
  Git.ofHistory [⟨[], 0, 0⟩, ⟨[], 1, 1⟩, ⟨[1], 2, 2⟩, ⟨[2], 3, 3⟩, ⟨[2], 4, 4⟩, ⟨[4], 5, 3⟩,
    ⟨[1], 6, 6⟩] (by decide)

instance (a b : Sha) : Decidable (twoRunsGit.Anc a b) :=
  inferInstanceAs (Decidable ((Git.ofHistory _ _).Anc a b))

/-- A merge of the first diff, a push to `main`, and a rebase of the second. -/
def mergedInTwo : List Event :=
  [.createReview 5 [] ⟨"owner", "repo", "main", none, 3, 9⟩,
    .publishReviewDiff [] ⟨"owner", "repo", 1, 1⟩, .publishReviewDiff [] ⟨"owner", "repo", 1, 2⟩,
    .publishReview [] ⟨"owner", "repo", 1⟩, .mergeReviewDiff [] ⟨"owner", "repo", 1, 1⟩,
    .push "main" 4, .mergeReviewDiff [] ⟨"owner", "repo", 1, 2⟩]

theorem merged_diffs_contained_inTwo : MergedContained twoRunsGit
    (play (step twoRunsGit) mergedInTwo
      (fresh 7 fun branch => if branch = "main" then some 1 else none)) :=
  merged_diffs_contained _ _ (reach_play (.start ⟨_, _, rfl⟩) (by decide +kernel))

/-- An update with the one commit 6 leaves the second diff on 2, and merging
both marks 6 merged though `main` goes to 3. -/
theorem not_merged_diffs_contained :
    ¬ ∀ (g : Git) (s : RepoState), Reach Fresh (step g) (ForwardPushes g) s →
      MergedContained g s := by
  intro h
  have hrun := h twoRunsGit (play (step twoRunsGit)
    [.createReview 5 [] ⟨"owner", "repo", "main", none, 3, 9⟩,
      .processReviewUpdate [] ⟨"owner", "repo", "main", some 1, 6, 9⟩,
      .publishReviewDiff [] ⟨"owner", "repo", 1, 2⟩, .publishReview [] ⟨"owner", "repo", 1⟩,
      .mergeReviewDiff [] ⟨"owner", "repo", 1, 2⟩]
    (fresh 7 fun branch => if branch = "main" then some 1 else none))
    (reach_play (.start ⟨_, _, rfl⟩) ⟨trivial, trivial, trivial, trivial, trivial, trivial⟩)
  exact absurd hrun (by decide +kernel)

end Gitdot
