/-
# Merges and pushes that run side by side

`merge_review_diff` reads the tip of its target branch at the start and points
the branch at the merged commit at the end, whatever the branch points to by
then: `update_ref` compares nothing. Between the two come the rebases, and
with them the calls of other merges and direct pushes. A push is accepted if
the branch points to what its pusher saw; a merge moves it in any case.

Here any number of merges run on one repository, call by call, while pushes
come in. `mergedCommits` are the commits of the diffs that a call merges, as
rebased if it rebased them. They are on the target branch for good in the
runs in which the branch only ever moves to a descendant of its tip, and a
merge that fast-forwards goes to a commit that has those of all its diffs as
ancestors (`no_lost_merge`).

Key definitions: `MergePool`, `mergeNext`, `mergedCommits`, `NoLostMerge`,
`TargetForward`.
Key theorems: `obeys_mergeReviewDiff`, `forward_next`, `no_lost_merge`,
`push_lost`.
-/
import Mathlib.Data.ZMod.Defs
import Gitdot.Lib.Pool
import Gitdot.Review.Contained

namespace Gitdot

open Lib Prog

/-! ### Runs -/

/-- A repository with the pushes it has accepted: each branch with its new tip. -/
structure PushedRepo where
  repo : RepoState
  accepted : List (String × Sha)

/-- A direct push: from the tip its pusher saw to a new one. -/
structure DirectPush where
  branch : String
  old : Option Sha
  new : Sha
  deriving DecidableEq

/-- The ref moves if it still points to what the pusher saw. -/
def receivePush (push : DirectPush) (s : PushedRepo) : PushedRepo :=
  if s.repo.refs (getTargetRef push.branch) = push.old then
    { repo := s.repo.updateRef (getTargetRef push.branch) push.new
      accepted := (push.branch, push.new) :: s.accepted }
  else s

/-- What answers the calls of merges. -/
def mergeCalls (g : Git) : Handler Call Call.Resp CallError PushedRepo where
  exec c s := ((exec g 0 c s.repo).1, { s with repo := (exec g 0 c s.repo).2 })
  fault := callFault

abbrev MergePool := Pool MergeReviewDiffRequest Call Call.Resp CallError ReviewError Review PushedRepo

abbrev MergeMove := Move MergeReviewDiffRequest DirectPush

def mergeNext (g : Git) : MergeMove → MergePool → MergePool :=
  Pool.next (mergeCalls g) mergeReviewDiff receivePush

/-- No merge has come yet. -/
def quiet (s : RepoState) : MergePool := ⟨⟨⟨s, []⟩, []⟩, []⟩

/-! ### What a merge merges -/

abbrev MergeEvent := Prog.Event Call Call.Resp CallError

/-- The commit that a cherry-pick made. -/
def pick : MergeEvent → Option Sha
  | ⟨.cherryPickCommit _ _, .ok new⟩ => some new
  | _ => none

/-- The review that a read found. -/
def found : MergeEvent → Option Review
  | ⟨.getReviewByNumber _, .ok review⟩ => review
  | _ => none

/-- The commits a merge has picked, the latest first. -/
def picked (seen : List MergeEvent) : List Sha := seen.filterMap pick

/-- The review a merge read first. -/
def readReview (seen : List MergeEvent) : Option Review := (seen.filterMap found).getLast?

/-- The commits of the diffs that a merge merges: those it picked, and if it
picked none, as the diffs have them. -/
def mergedCommits (request : MergeReviewDiffRequest) (seen : List MergeEvent) : List Sha :=
  if picked seen = [] then
    (readReview seen).elim [] fun review =>
      (diffsToMerge review request.position).filterMap fun d => d.latest?.map Revision.commitHash
  else picked seen

/-- The commit is on the branch. -/
def OnBranch (g : Git) (P : MergePool) (branch : String) (commit : Sha) : Prop :=
  ∃ tip ∈ P.sys.store.repo.refs (getTargetRef branch), g.Anc commit tip

/-- **No lost merge.** Every merge that has returned `Ok` has a commit for each
diff it selected, and these are on its target branch; and so is every commit
that a push was accepted with. -/
structure NoLostMerge (g : Git) (P : MergePool) : Prop where
  merges : ∀ n request made, P.result n = some (request, .ok made) → ∃ review,
    readReview (seen n P.sys.log) = some review ∧
    (mergedCommits request (seen n P.sys.log)).length =
      (diffsToMerge review request.position).length ∧
    ∀ c ∈ mergedCommits request (seen n P.sys.log), OnBranch g P review.targetBranch c
  pushes : ∀ p ∈ P.sys.store.accepted, OnBranch g P p.1 p.2

/-! ### The condition -/

/-- The branch that a call moves, and where to. -/
def Call.moves : Call → Option (String × Sha)
  | .updateRef (.heads branch) sha => some (branch, sha)
  | _ => none

/-- The branch goes to a descendant of its tip. -/
def GoesForward (g : Git) (P : MergePool) (branch : String) (sha : Sha) : Prop :=
  ∀ tip ∈ P.sys.store.repo.refs (getTargetRef branch), g.Anc tip sha

/-- A merge that moves a branch moves it forward, and to a descendant of all
the commits it merges if it fast-forwards. -/
def LandsForward (g : Git) (P : MergePool) (caller : Caller MergeReviewDiffRequest) (c : Call) :
    Prop :=
  ∀ x ∈ c.moves, GoesForward g P x.1 x.2 ∧
    (picked (seen caller.number P.sys.log) = [] →
      ∀ commit ∈ mergedCommits caller.op (seen caller.number P.sys.log), g.Anc commit x.2)

/-- Branches only move forward. -/
def TargetForward (g : Git) (P : MergePool) : MergeMove → Prop
  | .start _ => True
  | .step _ .refused => True
  | .step n fate => OnCalls (LandsForward g) P (.step n fate : MergeMove)
  | .env push => P.sys.store.repo.refs (getTargetRef push.branch) = push.old →
      GoesForward g P push.branch push.new

section Decidable

variable (g : Git) [∀ a b, Decidable (g.Anc a b)]

instance (P : MergePool) (branch : String) (sha : Sha) : Decidable (GoesForward g P branch sha) :=
  Option.decidableForallMem _

instance (P : MergePool) (caller : Caller MergeReviewDiffRequest) (c : Call) :
    Decidable (LandsForward g P caller c) :=
  letI (x : String × Sha) : Decidable (GoesForward g P x.1 x.2 ∧
      (picked (seen caller.number P.sys.log) = [] →
        ∀ commit ∈ mergedCommits caller.op (seen caller.number P.sys.log), g.Anc commit x.2)) :=
    inferInstance
  Option.decidableForallMem _

instance (P : MergePool) : (m : MergeMove) → Decidable (TargetForward g P m)
  | .start _ | .step _ .refused => .isTrue trivial
  | .step n .answered => inferInstanceAs (Decidable (OnCalls (LandsForward g) P
      (.step n .answered : MergeMove)))
  | .step n .lost => inferInstanceAs (Decidable (OnCalls (LandsForward g) P
      (.step n .lost : MergeMove)))
  | .env push => inferInstanceAs (Decidable
      (P.sys.store.repo.refs (getTargetRef push.branch) = push.old →
        GoesForward g P push.branch push.new))

end Decidable

/-! ### What a merge does -/

section Seen

variable {newer seen : List MergeEvent}

theorem picked_append : picked (newer ++ seen) = picked newer ++ picked seen :=
  List.filterMap_append ..

/-- A review that was read first stays the one read first. -/
theorem readReview_append {review : Review} (h : readReview seen = some review) :
    readReview (newer ++ seen) = some review := by
  unfold readReview at h ⊢
  rw [List.filterMap_append, List.getLast?_append, h]
  rfl

/-- The calls that pick no commit. -/
def Call.PicksNone : Call → Prop
  | .cherryPickCommit _ _ => False
  | _ => True

theorem picked_eq_nil (h : ∀ e ∈ newer, e.1.PicksNone) : picked newer = [] := by
  refine List.filterMap_eq_nil_iff.mpr fun e he => ?_
  have hnone := h e he
  obtain ⟨c, answer⟩ := e
  cases c with
  | cherryPickCommit _ _ => exact hnone.elim
  | _ => rfl

theorem mergedCommits_congr {request : MergeReviewDiffRequest} {seen' : List MergeEvent}
    (hpicked : picked seen' = picked seen) (hread : readReview seen' = readReview seen) :
    mergedCommits request seen' = mergedCommits request seen := by
  unfold mergedCommits
  rw [hpicked, hread]

end Seen

/-- The cherry-picks were answered by the git client. -/
def HonestPicks (g : Git) (seen : List MergeEvent) : Prop :=
  ∀ commit parent new, (⟨.cherryPickCommit commit parent, .ok new⟩ : MergeEvent) ∈ seen →
    g.cherryPickCommit commit parent = .ok new

/-- The loop of rebases has picked one commit for each diff, and the last one
has them all and `parent` as ancestors. -/
def Rebased (g : Git) (parent : Sha) (sel : List (Diff × Revision)) (seen seen' : List MergeEvent)
    (tip : Sha) : Prop :=
  ∃ newer, seen' = newer ++ seen ∧ (picked newer).length = sel.length ∧
    (HonestPicks g seen' → g.Anc parent tip ∧ ∀ c ∈ picked newer, g.Anc c tip)

section Obeys

variable {g : Git} {request : MergeReviewDiffRequest}

theorem obeys_rebaseDiffs (id : Uuid) : ∀ (sel : List (Diff × Revision)) (parent : Sha)
    (seen : List MergeEvent), Obeys (fun _ _ => True)
      (fun seen' r => ∀ tip, r = .ok tip → Rebased g parent sel seen seen' tip) seen
      (rebaseDiffs id parent sel)
  | [], parent, seen => by
    rintro tip htip
    obtain rfl := Except.ok.inj htip
    exact ⟨[], rfl, rfl, fun _ => ⟨.refl _, fun c hc => absurd hc List.not_mem_nil⟩⟩
  | (diff, revision) :: rest, parent, seen => by
    refine obeys_perform_bind trivial (fun e tip h => nomatch h) fun new => ?_
    refine obeys_perform_bind trivial (fun e tip h => nomatch h) fun _ => ?_
    refine obeys_perform_bind trivial (fun e tip h => nomatch h) fun _ => ?_
    refine (obeys_rebaseDiffs id rest new _).mono (fun _ _ h => h) ?_
    intro seen' r h tip hr
    obtain ⟨newer, rfl, hlength, hanc⟩ := h tip hr
    let events : List MergeEvent :=
      [⟨.updateRef (getCurrentRef id.short diff.position) new, .ok ()⟩,
        ⟨.updateRevisionSha ⟨⟨id, diff.position⟩, revision.number⟩ new parent, .ok ()⟩,
        ⟨.cherryPickCommit revision.commitHash parent, .ok new⟩]
    have hpicked : picked (newer ++ events) = picked newer ++ [new] := picked_append
    refine ⟨newer ++ events, by simp [events], ?_, fun hhonest => ?_⟩
    · rw [hpicked, List.length_append, hlength]
      rfl
    · obtain ⟨hnew, hpicks⟩ := hanc hhonest
      have hpick : g.cherryPickCommit revision.commitHash parent = .ok new :=
        hhonest _ _ _ (by simp)
      refine ⟨(Git.anc_of_cherryPick hpick).trans hnew, fun c hc => ?_⟩
      rw [hpicked] at hc
      rcases List.mem_append.mp hc with hc | hc
      · exact hpicks c hc
      · rw [List.mem_singleton.mp hc]
        exact hnew

/-- What a merge that returns `Ok` has done: it read a review, pointed the
target branch at `sha`, and had one commit for each diff; those it picked are
ancestors of `sha`. -/
structure Landed (g : Git) (request : MergeReviewDiffRequest) (seen : List MergeEvent)
    (review : Review) (sha : Sha) (before : List MergeEvent) : Prop where
  moved : (⟨.updateRef (getTargetRef review.targetBranch) sha, .ok ()⟩ : MergeEvent) :: before <:+ seen
  read : readReview seen = some review
  commits : mergedCommits request seen = mergedCommits request before
  length : (mergedCommits request before).length = (diffsToMerge review request.position).length
  picks : HonestPicks g before → ∀ c ∈ picked before, g.Anc c sha

/-- The review that is read first. -/
theorem obeys_getReviewById (owner repo : String) (number : ℤ) :
    Obeys (fun _ _ => True) (fun seen r => ∀ review, r = .ok review →
      seen = [⟨.getReviewByNumber number, .ok (some review)⟩]) []
      (getReviewById owner repo number) := by
  refine ⟨trivial, fun r => ?_⟩
  cases r with
  | error e => exact fun review h => nomatch h
  | ok found =>
    cases found with
    | none => exact fun review h => nomatch h
    | some review =>
      rintro review' h
      rw [← Except.ok.inj h]

theorem picksNone_ask {c : Call} (hc : c.PicksNone) : (ask c).Calls Call.PicksNone :=
  calls_perform hc

theorem picksNone_markMerged (id : Uuid) : ∀ sel : List (Diff × Revision),
    (markMerged id sel).Calls Call.PicksNone
  | [] => trivial
  | (diff, _) :: sel => by
    unfold markMerged
    refine calls_bind (fun _ => picksNone_markMerged id sel) ?_
    exact picksNone_ask trivial

/-- What follows the move of the branch. -/
theorem picksNone_rest (review : Review) (sel : List (Diff × Revision))
    (status : Option ReviewStatus) (owner repo : String) (number : ℤ) :
    Calls Call.PicksNone (do
      markMerged review.id sel
      ask (.updateReview review.id status none none)
      getReviewById owner repo number) := by
  refine calls_bind (fun _ => ?_) (picksNone_markMerged _ _)
  refine calls_bind (fun _ => ?_) ?_
  · refine calls_bind (fun _ => calls_liftExcept) ?_
    exact picksNone_ask trivial
  · exact picksNone_ask trivial

theorem latest_commits : ∀ {sel : List (Diff × Revision)},
    (∀ p ∈ sel, p.1.latest? = some p.2) →
      (sel.map Prod.fst).filterMap (fun d => d.latest?.map Revision.commitHash) =
        sel.map fun p => p.2.commitHash
  | [], _ => rfl
  | p :: sel, h => by
    obtain ⟨hp, hsel⟩ := List.forall_mem_cons.mp h
    rw [List.map_cons, List.filterMap_cons, hp, latest_commits hsel]
    rfl

/-- One commit for each selected diff, if none was picked. -/
theorem mergedCommits_read {review : Review} {sel : List (Diff × Revision)}
    {seen : List MergeEvent} (hread : readReview seen = some review)
    (hsel : sel.map Prod.fst = diffsToMerge review request.position)
    (hlatest : ∀ p ∈ sel, p.1.latest? = some p.2) (hpicked : picked seen = []) :
    (mergedCommits request seen).length = (diffsToMerge review request.position).length := by
  unfold mergedCommits
  rw [if_pos hpicked, hread, Option.elim_some, ← hsel, latest_commits hlatest, List.length_map,
    List.length_map]

/-- A merge that read the review first is about to point its target branch at
`sha`. -/
structure Ready (g : Git) (request : MergeReviewDiffRequest) (review : Review)
    (before : List MergeEvent) (sha : Sha) : Prop where
  read : readReview before = some review
  length : (mergedCommits request before).length = (diffsToMerge review request.position).length
  picks : HonestPicks g before → ∀ c ∈ picked before, g.Anc c sha

/-- After the rebases a merge is ready. -/
theorem ready_rebased {review : Review} {first : Diff × Revision} {rest : List (Diff × Revision)}
    {targetSha : Sha} {seen before : List MergeEvent} {sha : Sha}
    (hread : readReview seen = some review)
    (hsel : (first :: rest).map Prod.fst = diffsToMerge review request.position)
    (hpicked : picked seen = [])
    (h : Rebased g targetSha (first :: rest) seen before sha) : Ready g request review before sha := by
  obtain ⟨newer, rfl, hlength, hanc⟩ := h
  have hall : picked (newer ++ seen) = picked newer := by
    rw [picked_append, hpicked, List.append_nil]
  refine ⟨readReview_append hread, ?_, fun hhonest c hc => ?_⟩
  · have hne : picked (newer ++ seen) ≠ [] := by
      rw [hall]
      exact List.ne_nil_of_length_pos (by rw [hlength]; exact Nat.succ_pos _)
    unfold mergedCommits
    rw [if_neg hne, hall, hlength, ← hsel, List.length_map]
  · rw [hall] at hc
    exact (hanc hhonest).2 c hc

/-- A merge that is ready lands. -/
theorem obeys_moved {review : Review} {before : List MergeEvent} {sha : Sha}
    (h : Ready g request review before sha) (sel : List (Diff × Revision))
    (status : Option ReviewStatus) :
    Obeys (fun _ _ => True)
      (fun seen r => ∀ made, r = .ok made → ∃ review sha before,
        Landed g request seen review sha before) before (do
      ask (.updateRef (getTargetRef review.targetBranch) sha)
      markMerged review.id sel
      ask (.updateReview review.id status none none)
      getReviewById request.owner request.repo request.number) := by
  refine obeys_perform_bind trivial (fun _ made h => nomatch h) fun _ => ?_
  refine ((picksNone_rest review sel status _ _ _).obeys_newer).mono (fun _ _ h => h) ?_
  rintro seen' r ⟨newer, rfl, hnone⟩ made hr
  let moved : List MergeEvent := [⟨.updateRef (getTargetRef review.targetBranch) sha, .ok ()⟩]
  have hread : readReview (newer ++ (moved ++ before)) = some review :=
    readReview_append (readReview_append h.read)
  refine ⟨review, sha, before, ⟨newer, rfl⟩, hread, ?_, h.length, h.picks⟩
  refine mergedCommits_congr ?_ (hread.trans h.read.symm)
  rw [picked_append, picked_eq_nil hnone]
  rfl

theorem obeys_mergeReviewDiff : Obeys (fun _ _ => True)
    (fun seen r => ∀ made, r = .ok made → ∃ review sha before,
      Landed g request seen review sha before) [] (mergeReviewDiff request) := by
  unfold mergeReviewDiff
  refine obeys_bind (fun seen review hread => ?_) (fun _ _ _ made h => nomatch h)
    (obeys_getReviewById request.owner request.repo request.number)
  rw [hread review rfl]
  refine obeys_ite (fun _ made h => nomatch h) fun hopen => ?_
  cases hsel : diffsToMerge review request.position with
  | nil => exact fun made h => nomatch h
  | cons diff diffs =>
    refine obeys_liftExcept_bind (fun _ made h => nomatch h) fun first hfirst => ?_
    refine obeys_liftExcept_bind (fun _ made h => nomatch h) fun rest hrest => ?_
    refine obeys_perform_bind trivial (fun _ made h => nomatch h) fun targetSha => ?_
    obtain ⟨hmap, hlatest⟩ : (first :: rest).map Prod.fst = diffsToMerge review request.position ∧
        ∀ p ∈ first :: rest, p.1.latest? = some p.2 := by
      obtain ⟨rfl, hv⟩ := withRevision_eq_ok hfirst
      obtain ⟨hmap, hl⟩ := mapM_withRevision_eq_ok hrest
      exact ⟨by rw [List.map_cons, hmap, hsel], List.forall_mem_cons.mpr ⟨hv, hl⟩⟩
    let read : List MergeEvent :=
      [⟨.resolveRefSha (getTargetRef review.targetBranch), .ok targetSha⟩,
        ⟨.getReviewByNumber request.number, .ok (some review)⟩]
    refine obeys_ite (fun _ => ?_) fun _ => ?_
    · have hready : Ready g request review read (rest.getLastD first).2.commitHash :=
        ⟨rfl, mergedCommits_read rfl hmap hlatest rfl, fun _ c hc => absurd hc List.not_mem_nil⟩
      exact obeys_moved hready _ _
    · refine obeys_bind (fun before sha hrebased => ?_) ?_
        (obeys_rebaseDiffs (g := g) review.id (first :: rest) targetSha read)
      · exact obeys_moved (ready_rebased rfl hmap rfl (hrebased sha rfl)) _ _
      · exact fun _ _ _ made h => nomatch h

end Obeys

/-! ### Runs -/

section Runs

variable {g : Git} {s : RepoState} {P P₀ : MergePool}

theorem Forward.trans {refs refs' refs'' : Refs} (h : Forward g refs refs')
    (h' : Forward g refs' refs'') : Forward g refs refs'' := by
  intro branch tip htip
  obtain ⟨tip', htip', hanc⟩ := h branch tip htip
  obtain ⟨tip'', htip'', hanc'⟩ := h' branch tip' htip'
  exact ⟨tip'', htip'', hanc.trans hanc'⟩

theorem forward_refl (refs : Refs) : Forward g refs refs := forward_of_eq fun _ => rfl

theorem forward_set_other {refs : Refs} {name : RefName} {sha : Sha}
    (h : ∀ branch, getTargetRef branch ≠ name) : Forward g refs (refs.set name sha) :=
  forward_of_eq fun branch => Refs.set_of_ne _ _ (h branch)

/-- A call that moves branches forward if it moves them. -/
theorem forward_exec (c : Call) (r : RepoState)
    (hc : ∀ x ∈ c.moves, ∀ tip ∈ r.refs (getTargetRef x.1), g.Anc tip x.2) :
    Forward g r.refs (exec g 0 c r).2.refs := by
  cases c with
  | updateRef name sha =>
    cases name with
    | heads branch => exact forward_set (hc (branch, sha) rfl)
    | reviewHead id => exact forward_set_other fun branch h => nomatch h
    | revision id position number => exact forward_set_other fun branch h => nomatch h
    | current id position => exact forward_set_other fun branch h => nomatch h
  | createRef name sha =>
    show Forward g r.refs (r.createRef name sha).2.refs
    unfold RepoState.createRef
    cases hname : r.refs name with
    | some old => exact forward_refl _
    | none =>
      intro branch tip htip
      have hne : getTargetRef branch ≠ name := by
        rintro rfl
        rw [hname] at htip
        cases htip
      exact ⟨tip, (Refs.set_of_ne _ _ hne).trans htip, .refl _⟩
  | createReview repository author targetBranch =>
    show Forward g r.refs (r.createReview 0 author targetBranch).2.refs
    unfold RepoState.createReview
    split
    · exact forward_refl _
    · exact forward_refl _
  | createDiff review position message =>
    show Forward g r.refs (r.createDiff review position message).2.refs
    unfold RepoState.createDiff
    split
    · exact forward_refl _
    · dsimp only
      split
      · exact forward_refl _
      · exact forward_refl _
  | createRevision diff number commitHash parentHash =>
    show Forward g r.refs (r.createRevision diff number commitHash parentHash).2.refs
    unfold RepoState.createRevision
    split
    · exact forward_refl _
    · dsimp only
      split
      · exact forward_refl _
      · exact forward_refl _
  | _ => exact forward_refl _

theorem forward_push {push : DirectPush} {r : PushedRepo}
    (h : r.repo.refs (getTargetRef push.branch) = push.old →
      ∀ tip ∈ r.repo.refs (getTargetRef push.branch), g.Anc tip push.new) :
    Forward g r.repo.refs (receivePush push r).repo.refs := by
  unfold receivePush
  split_ifs with hold
  · exact forward_set (h hold)
  · exact forward_refl _

/-- **One move.** Under the condition no branch loses its tip. -/
theorem forward_next {m : MergeMove} (hg : TargetForward g P m) :
    Forward g P.sys.store.repo.refs (mergeNext g m P).sys.store.repo.refs := by
  cases m with
  | start request => exact forward_refl _
  | step n fate =>
    rcases atCall_or_done P n with ⟨op, c, k, hn⟩ | hdone
    · rw [show mergeNext g (.step n fate) P = _ from next_step hn]
      cases fate with
      | refused => exact forward_refl _
      | answered =>
        exact forward_exec c _ fun x hx => (OnCalls.of_thread hg hn x hx).1
      | lost => exact forward_exec c _ fun x hx => (OnCalls.of_thread hg hn x hx).1
    · rw [show mergeNext g (.step n fate) P = P from hdone fate]
      exact forward_refl _
  | env push => exact forward_push hg

theorem forward_later
    (hl : Later (mergeCalls g) mergeReviewDiff receivePush (TargetForward g) P₀ P) :
    Forward g P₀.sys.store.repo.refs P.sys.store.repo.refs := by
  induction hl with
  | start heq =>
    rw [heq]
    exact forward_refl _
  | next m hl hg ih => exact ih.trans (forward_next hg)

theorem OnBranch.forward {P' : MergePool} {branch : String} {commit : Sha}
    (h : OnBranch g P branch commit)
    (hfwd : Forward g P.sys.store.repo.refs P'.sys.store.repo.refs) : OnBranch g P' branch commit := by
  obtain ⟨tip, htip, hanc⟩ := h
  obtain ⟨tip', htip', hanc'⟩ := hfwd branch tip htip
  exact ⟨tip', htip', hanc.trans hanc'⟩

/-- Accepted pushes stay on their branches. -/
theorem pushes_on_branch (h : Reach (fun P => P = quiet s) (mergeNext g) (TargetForward g) P) :
    ∀ p ∈ P.sys.store.accepted, OnBranch g P p.1 p.2 := by
  induction h with
  | start heq =>
    rw [heq]
    exact fun p hp => absurd hp List.not_mem_nil
  | @next P m h hg ih =>
    intro p hp
    have hold : p ∈ P.sys.store.accepted → OnBranch g (mergeNext g m P) p.1 p.2 :=
      fun hp => (ih p hp).forward (forward_next hg)
    cases m with
    | start request => exact hold hp
    | step n fate =>
      rcases atCall_or_done P n with ⟨op, c, k, hn⟩ | hdone
      · rw [show mergeNext g (.step n fate) P = _ from next_step hn] at hp
        cases fate with
        | answered => exact hold hp
        | refused => exact hold hp
        | lost => exact hold hp
      · rw [show mergeNext g (.step n fate) P = P from hdone fate] at hp
        exact hold hp
    | env push =>
      have hp : p ∈ (receivePush push P.sys.store).accepted := hp
      unfold receivePush at hp
      split_ifs at hp with htip
      · rcases List.mem_cons.mp hp with rfl | hp
        · refine ⟨push.new, ?_, .refl _⟩
          show (receivePush push P.sys.store).repo.refs (getTargetRef push.branch) = some push.new
          unfold receivePush
          rw [if_pos htip]
          exact Refs.set_self _ _ _
        · exact hold hp
      · exact hold hp

theorem obeyed_merges {guard : MergePool → MergeMove → Prop}
    (h : Reach (fun P => P = quiet s) (mergeNext g) guard P) :
    Obeyed (fun _ _ _ => True) (fun request seen r => ∀ made, r = .ok made →
      ∃ review sha before, Landed g request seen review sha before) P := by
  refine obeyed_run ?_ (fun request => obeys_mergeReviewDiff) h
  rintro P rfl
  exact ⟨rfl, rfl⟩

/-- What a merge was answered, the git client has answered. -/
theorem honestPicks {guard : MergePool → MergeMove → Prop}
    (h : Reach (fun P => P = quiet s) (mergeNext g) guard P) (n : ℕ) :
    HonestPicks g (seen n P.sys.log) := by
  intro commit parent new hmem
  obtain ⟨op, Q, Q', hmoment⟩ := h.moment_of_seen (by rintro P rfl; exact List.not_mem_nil) hmem
  have hexec : (g.cherryPickCommit commit parent).mapError CallError.git = .ok new := hmoment.exec
  cases hpick : g.cherryPickCommit commit parent with
  | error e =>
    rw [hpick] at hexec
    cases hexec
  | ok new' =>
    rw [hpick] at hexec
    rw [Except.ok.inj hexec]

/-- **Merges.** What a merge that returned `Ok` has merged is on its branch. -/
theorem merge_on_branch (h : Reach (fun P => P = quiet s) (mergeNext g) (TargetForward g) P) {n : ℕ}
    {request : MergeReviewDiffRequest} {made : Review} (hr : P.result n = some (request, .ok made)) :
    ∃ review, readReview (seen n P.sys.log) = some review ∧
      (mergedCommits request (seen n P.sys.log)).length =
        (diffsToMerge review request.position).length ∧
      ∀ c ∈ mergedCommits request (seen n P.sys.log), OnBranch g P review.targetBranch c := by
  have hobeyed := obeyed_merges h
  obtain ⟨review, sha, before, hlanded⟩ := hobeyed.rests n _ (result_ok.mp hr) made rfl
  refine ⟨review, hlanded.read, hlanded.commits ▸ hlanded.length, fun commit hc => ?_⟩
  rw [hlanded.commits] at hc
  -- the moment at which the merge moved the branch
  obtain ⟨⟨caller, store, c, answer⟩, older, hs, rfl, hevent, hbefore⟩ :=
    exists_of_seen_suffix hlanded.moved
  cases hevent
  obtain ⟨Q, Q', hmoment, hsys⟩ := h.moment (by rintro P rfl; exact List.not_mem_nil) hs
  have hseen : seen caller.number Q.sys.log = before := by
    rw [hsys]
    exact hbefore
  obtain ⟨k, hthread⟩ := hmoment.thread
  obtain ⟨-, hforward⟩ := OnCalls.of_thread (k := k) hmoment.guarded hthread
    (review.targetBranch, sha) rfl
  have hop : caller.op = request := by
    rw [← hmoment.op_eq (result_ok.mp hr)]
  have hanc : g.Anc commit sha := by
    by_cases hpicked : picked before = []
    · refine hforward ?_ commit ?_
      · rw [← hpicked, ← hseen]
      · show commit ∈ mergedCommits caller.op (seen caller.number Q.sys.log)
        rw [hop, hseen]
        exact hc
    · refine hlanded.picks ?_ commit ?_
      · rw [← hseen]
        exact honestPicks hmoment.reach caller.number
      · unfold mergedCommits at hc
        rwa [if_neg hpicked] at hc
  have htip : OnBranch g Q' review.targetBranch commit := by
    refine ⟨sha, ?_, hanc⟩
    rw [hmoment.sys]
    exact Refs.set_self _ _ _
  exact htip.forward (forward_later hmoment.later)

/-- **No lost merge.** Any number of merges and of pushes, interleaved call by
call, whichever calls fail: if branches only move forward, no merge that
returned `Ok` and no accepted push is lost. -/
theorem no_lost_merge (h : Reach (fun P => P = quiet s) (mergeNext g) (TargetForward g) P) :
    NoLostMerge g P :=
  ⟨fun _ _ _ hr => merge_on_branch h hr, pushes_on_branch h⟩

/-- **Lost pushes.** A merge that moves the branch to a commit without that of
an accepted push loses the push. -/
theorem push_lost {n : ℕ} {request : MergeReviewDiffRequest} {branch : String} {commit sha : Sha}
    {k : Except CallError Unit → ReviewProg Review}
    (hn : P.threads[n]? = some ⟨request, .call (.updateRef (getTargetRef branch) sha) k⟩)
    (hp : (branch, commit) ∈ P.sys.store.accepted) (hanc : ¬ g.Anc commit sha) :
    ¬ NoLostMerge g (mergeNext g (.step n .answered) P) := by
  intro h
  rw [show mergeNext g (.step n .answered) P = _ from next_step hn] at h
  obtain ⟨tip, htip, hon⟩ := h.pushes (branch, commit) hp
  have hmoved : some sha = some tip := (Refs.set_self _ _ _).symm.trans htip
  exact hanc (Option.some.inj hmoved ▸ hon)

end Runs

/-! ### Two merges to one branch

Commits 2 and 3 are each under review on the root 1; 4 is 3 picked onto 2, and
5 is on 4. -/

def twoMergesGit : Git :=
  Git.ofHistory [⟨[], 0, 0⟩, ⟨[], 1, 1⟩, ⟨[1], 2, 2⟩, ⟨[1], 3, 3⟩, ⟨[2], 4, 3⟩, ⟨[4], 5, 5⟩]
    (by decide)

instance (a b : Sha) : Decidable (twoMergesGit.Anc a b) :=
  inferInstanceAs (Decidable ((Git.ofHistory _ _).Anc a b))

/-- Both reviews are open, with `main` at 1. -/
def twoReviews : RepoState :=
  play (step twoMergesGit)
    [.createReview 5 [] ⟨"owner", "repo", "main", none, 2, 9⟩,
      .publishReviewDiff [] ⟨"owner", "repo", 1, 1⟩, .publishReview [] ⟨"owner", "repo", 1⟩,
      .createReview (2 ^ 96) [] ⟨"owner", "repo", "main", none, 3, 9⟩,
      .publishReviewDiff [] ⟨"owner", "repo", 2, 1⟩, .publishReview [] ⟨"owner", "repo", 2⟩]
    (fresh 7 fun branch => if branch = "main" then some 1 else none)

theorem reach_twoReviews : Reach Fresh (step twoMergesGit) (fun _ _ => True) twoReviews :=
  reach_play (.start ⟨_, _, rfl⟩) guarded_true

def mergeSteps (n count : ℕ) : List MergeMove := List.replicate count (.step n .answered)

def bothMerges : List MergeMove := [.start ⟨"owner", "repo", 1, 1⟩, .start ⟨"owner", "repo", 2, 1⟩]

/-- The second merge reads the tip after the first has moved it, and a push
follows. -/
def inTurn : List MergeMove :=
  bothMerges ++ mergeSteps 0 3 ++ mergeSteps 1 4 ++ mergeSteps 0 3 ++ mergeSteps 1 5 ++
    [.env ⟨"main", some 4, 5⟩]

theorem no_lost_merge_inTurn :
    NoLostMerge twoMergesGit (play (mergeNext twoMergesGit) inTurn (quiet twoReviews)) :=
  no_lost_merge (reach_play (.start rfl) (by decide +kernel))

example : (play (mergeNext twoMergesGit) inTurn (quiet twoReviews)).sys.store.repo.refs
    (getTargetRef "main") = some 5 := by decide +kernel

/-- Both merges read the tip before either moves it. -/
def atOnce : List MergeMove :=
  bothMerges ++ mergeSteps 0 2 ++ mergeSteps 1 2 ++ mergeSteps 0 4 ++ mergeSteps 1 4

/-- The second merge throws the first one away. -/
theorem not_no_lost_merge_atOnce :
    ¬ ∀ (g : Git) (s : RepoState) (P : MergePool), Reach Fresh (step g) (fun _ _ => True) s →
      Reach (fun P => P = quiet s) (mergeNext g) (fun _ _ => True) P → NoLostMerge g P := by
  intro hall
  let P := play (mergeNext twoMergesGit) atOnce (quiet twoReviews)
  have hlost : NoLostMerge twoMergesGit P :=
    hall twoMergesGit twoReviews P reach_twoReviews (reach_play (.start rfl) guarded_true)
  have hok : ∃ made, P.result 0 = some (⟨"owner", "repo", 1, 1⟩, .ok made) := by
    have hended : (P.result 0).map (fun r => (r.1, r.2.isOk)) =
        some (⟨"owner", "repo", 1, 1⟩, true) := by decide +kernel
    obtain ⟨⟨request, r⟩, hresult, hr⟩ := Option.map_eq_some_iff.mp hended
    obtain ⟨rfl, hr⟩ := Prod.mk.inj hr
    obtain ⟨made, rfl⟩ := exists_ok hr
    exact ⟨made, hresult⟩
  obtain ⟨made, hmade⟩ := hok
  obtain ⟨review, hread, -, hon⟩ := hlost.merges 0 _ made hmade
  have hcommits : mergedCommits ⟨"owner", "repo", 1, 1⟩ (seen 0 P.sys.log) = [2] := by decide +kernel
  have hbranch : (readReview (seen 0 P.sys.log)).map Review.targetBranch = some "main" := by
    decide +kernel
  rw [hread] at hbranch
  have htip : P.sys.store.repo.refs (getTargetRef "main") = some 3 := by decide +kernel
  obtain ⟨tip, htip', hanc⟩ := hon 2 (by rw [hcommits]; exact List.mem_singleton_self _)
  rw [Option.some.inj hbranch, htip] at htip'
  obtain rfl := Option.some.inj htip'
  exact absurd hanc (by decide +kernel)

end Gitdot
