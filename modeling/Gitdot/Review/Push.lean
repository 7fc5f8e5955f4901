/-
# What a push does

`create_review` and `process_review_update` number the pushed commits from
position 1. `Focus.pushAt` is the review and the refs after the commit at one
position, and `Focus.pushCalls` are the calls that get there, each with the
state it meets; `Focus.pushAll` and `PushPartly` are the same for all the
commits. Whatever calls fail, a push ends in one of these states
(`wp_pushDiffs`): the outcomes of the two methods are `CreateOutcome` and
`UpdateOutcome`.

Key definitions: `Focus.pushAt`, `Focus.pushCalls`, `PushPartly`,
`CreateOutcome`, `UpdateOutcome`.
Key theorems: `wp_pushDiffAt`, `wp_pushDiffs`, `wp_createReview`,
`wp_processReviewUpdate`.
-/
import Gitdot.Review.Focus
import Gitdot.Review.Service

namespace Gitdot

open Lib Prog

/-! ### Asking -/

section Ask

variable {g : Git} {draw : Uuid} {F : Call → RepoState → Prop} {α : Type}
  {Q : Except ReviewError α → RepoState → Prop} {s s' : RepoState} {c : Call}

/-- A call that answers `a`: it fails from outside, or the method goes on. -/
theorem wp_ask_bind {k : c.Resp → ReviewProg α} {a : c.Resp} (hx : exec g draw c s = (.ok a, s')) :
    wp (handler g draw) F Q (ask c >>= k) s ↔
      (F c s → Q (.error (callFault c).toReviewError) s) ∧ wp (handler g draw) F Q (k a) s' :=
  wp_perform_bind hx

/-- A call that is refused ends the method, as one that fails from outside does. -/
theorem wp_ask_bind_error {k : c.Resp → ReviewProg α} {e : CallError}
    (hx : exec g draw c s = (.error e, s')) :
    wp (handler g draw) F Q (ask c >>= k) s ↔
      (F c s → Q (.error (callFault c).toReviewError) s) ∧ Q (.error e.toReviewError) s' :=
  wp_perform_bind_error hx

/-- A call at the end of a method. -/
theorem wp_ask {Q : Except ReviewError c.Resp → RepoState → Prop} {a : c.Resp}
    (hx : exec g draw c s = (.ok a, s')) :
    wp (handler g draw) F Q (ask c) s ↔
      (F c s → Q (.error (callFault c).toReviewError) s) ∧ Q (.ok a) s' :=
  wp_perform_ok hx

theorem wp_ask_error {Q : Except ReviewError c.Resp → RepoState → Prop} {e : CallError}
    (hx : exec g draw c s = (.error e, s')) :
    wp (handler g draw) F Q (ask c) s ↔
      (F c s → Q (.error (callFault c).toReviewError) s) ∧ Q (.error e.toReviewError) s' :=
  wp_perform_error hx

end Ask

/-! ### One position -/

/-- The row of a new diff position. -/
def newDiff (position : ℤ) (commit : Commit) : Diff := ⟨position, commit.message, .draft, .empty⟩

namespace Focus

variable (g : Git) (f : Focus) (position : ℤ) (previousSha : Sha) (commit : Commit)

variable (d : Diff) (n : ℤ)

/-- The diff `d` with the commit as its revision `n`. -/
def withRevision : Focus := f.setDiff (d.putRevision ⟨n, commit.sha, previousSha⟩)

/-- The diff `d` with the commit as its revision `n`, and both refs. -/
def withRevisionRefs : Focus :=
  ((f.withRevision previousSha commit d n).setRef (f.revisionRef position n) commit.sha).setRef
    (f.currentRef position) commit.sha

/-- After a commit at a new position. -/
def afterNew : Focus :=
  f.withRevisionRefs position previousSha commit (newDiff position commit) 1

/-- After a commit whose patch is that of the diff's latest revision `n`. -/
def afterUnchanged : Focus := f.withRevisionRefs position previousSha commit d n

/-- After a commit with a new patch, `n` being the number it gets. -/
def afterModified : Focus :=
  (f.withRevisionRefs position previousSha commit d n).setDiff
    { d.putRevision ⟨n, commit.sha, previousSha⟩ with status := .open }

/-- The calls for a commit at a new position, each with the state it meets. -/
def newCalls : List (Call × Focus) :=
  let withRow := f.withRevision previousSha commit (newDiff position commit) 1
  [(.createDiff f.review.id position commit.message, f),
    (.createRevision ⟨f.review.id, position⟩ 1 commit.sha previousSha,
      f.setDiff (newDiff position commit)),
    (.createRef (f.revisionRef position 1) commit.sha, withRow),
    (.createRef (f.currentRef position) commit.sha,
      withRow.setRef (f.revisionRef position 1) commit.sha)]

variable (v : Revision)

/-- The calls for a commit whose patch is that of the latest revision `v`. -/
def unchangedCalls : List (Call × Focus) :=
  let withRow := f.withRevision previousSha commit d v.number
  [(.getCommitPatchId v.commitHash, f), (.getCommitPatchId commit.sha, f),
    (.updateRevisionSha ⟨⟨f.review.id, position⟩, v.number⟩ commit.sha previousSha, f),
    (.updateRef (f.revisionRef position v.number) commit.sha, withRow),
    (.updateRef (f.currentRef position) commit.sha,
      withRow.setRef (f.revisionRef position v.number) commit.sha)]

/-- The calls for a commit with a new patch, `v` being the latest revision. -/
def modifiedCalls : List (Call × Focus) :=
  let n := v.number + 1
  let withRow := f.withRevision previousSha commit d n
  [(.getCommitPatchId v.commitHash, f), (.getCommitPatchId commit.sha, f),
    (.createRevision ⟨f.review.id, position⟩ n commit.sha previousSha, f),
    (.createRef (f.revisionRef position n) commit.sha, withRow),
    (.updateRef (f.currentRef position) commit.sha,
      withRow.setRef (f.revisionRef position n) commit.sha),
    (.updateDiff ⟨f.review.id, position⟩ (some .open) none,
      f.withRevisionRefs position previousSha commit d n)]

/-- The review and the refs after the commit at `position`. There are none if
the diff there has no revisions or a ref to be created exists. -/
def pushAt : Option Focus :=
  match f.diff? position with
  | none =>
    if f.refs (f.revisionRef position 1) = none ∧ f.refs (f.currentRef position) = none then
      some (f.afterNew position previousSha commit)
    else none
  | some d =>
    match d.latest? with
    | none => none
    | some v =>
      if g.patchId v.commitHash = g.patchId commit.sha then
        some (f.afterUnchanged position previousSha commit d v.number)
      else if f.refs (f.revisionRef position (v.number + 1)) = none then
        some (f.afterModified position previousSha commit d (v.number + 1))
      else none

/-- The calls for the commit at `position`, each with the state it meets. -/
def pushCalls : List (Call × Focus) :=
  match f.diff? position with
  | none => f.newCalls position previousSha commit
  | some d =>
    match d.latest? with
    | none => []
    | some v =>
      if g.patchId v.commitHash = g.patchId commit.sha then
        f.unchangedCalls position previousSha commit d v
      else f.modifiedCalls position previousSha commit d v

end Focus

section Position

variable (F : Call → RepoState → Prop) (s : RepoState) (f : Focus) (calls : List (Call × Focus))
  (after : Option Focus)

/-- How a run of calls from `f` ends: all of them are made, and `after` is the
result, or one of them fails from outside, or there is no result and one of
them is refused. -/
def CallsEnd {α : Type} : Except ReviewError α → RepoState → Prop
  | .ok _, s' => ∃ f', after = some f' ∧ s' = s.put f'
  | .error e, s' => ∃ f', s' = s.put f' ∧
    ((∃ call, (call, f') ∈ calls ∧ F call s' ∧ e = (callFault call).toReviewError) ∨
      (after = none ∧ (f' = f ∨ ∃ call, (call, f') ∈ calls)))

variable {F s f calls after} {α : Type}

theorem CallsEnd.fault {call : Call} {f' : Focus} (h : (call, f') ∈ calls)
    (hF : F call (s.put f')) :
    CallsEnd (α := α) F s f calls after (.error (callFault call).toReviewError) (s.put f') :=
  ⟨f', rfl, .inl ⟨call, h, hF, rfl⟩⟩

theorem CallsEnd.refused {call : Call} {f' : Focus} {e : ReviewError} (h : (call, f') ∈ calls)
    (hnone : after = none) : CallsEnd (α := α) F s f calls after (.error e) (s.put f') :=
  ⟨f', rfl, .inr ⟨hnone, .inr ⟨call, h⟩⟩⟩

variable {g : Git} {draw : Uuid} {position : ℤ} {previousSha : Sha} {commit : Commit}

theorem wp_createDiffAt (h : f.diff? position = none) :
    wp (handler g draw) F (CallsEnd F s f (f.newCalls position previousSha commit)
        (f.pushAt g position previousSha commit))
      (createDiffAt f.review.id position previousSha commit) (s.put f) := by
  have hd : exec g draw (.createDiff f.review.id position commit.message) (s.put f) =
      (.ok (newDiff position commit), s.put (f.setDiff (newDiff position commit))) :=
    exec_createDiff_put commit.message h
  have hrow : (f.setDiff (newDiff position commit)).setDiff
      ((newDiff position commit).putRevision ⟨1, commit.sha, previousSha⟩) =
      f.withRevision previousSha commit (newDiff position commit) 1 := Focus.setDiff_setDiff rfl
  have hr : exec g draw (.createRevision ⟨f.review.id, position⟩ 1 commit.sha previousSha)
        (s.put (f.setDiff (newDiff position commit))) =
      (.ok ⟨1, commit.sha, previousSha⟩,
        s.put (f.withRevision previousSha commit (newDiff position commit) 1)) := by
    rw [← hrow]
    exact exec_createRevision_put commit.sha previousSha (Focus.diff?_setDiff_self _) rfl
  unfold createDiffAt Focus.pushAt
  simp only [h]
  refine (wp_ask_bind hd).mpr ⟨.fault (.head _), ?_⟩
  refine (wp_ask_bind hr).mpr ⟨.fault (.tail _ (.head _)), ?_⟩
  have hrev : (f.withRevision previousSha commit (newDiff position commit) 1).refs
      (f.revisionRef position 1) = f.refs (f.revisionRef position 1) := rfl
  have hcur : ((f.withRevision previousSha commit (newDiff position commit) 1).setRef
      (f.revisionRef position 1) commit.sha).refs (f.currentRef position) = f.refs (f.currentRef position) :=
    Focus.setRef_refs_of_ne _ (Focus.currentRef_ne_revisionRef _ _ _)
  cases h1 : f.refs (f.revisionRef position 1) with
  | some old =>
    exact (wp_ask_bind_error (exec_createRef_taken _ (hrev.trans h1))).mpr
      ⟨.fault (.tail _ (.tail _ (.head _))), .refused (.tail _ (.tail _ (.head _))) (by simp)⟩
  | none =>
    refine (wp_ask_bind (exec_createRef_put _ (hrev.trans h1))).mpr
      ⟨.fault (.tail _ (.tail _ (.head _))), ?_⟩
    cases h2 : f.refs (f.currentRef position) with
    | some old =>
      exact (wp_ask_error (exec_createRef_taken _ (hcur.trans h2))).mpr
        ⟨.fault (.tail _ (.tail _ (.tail _ (.head _)))),
          .refused (.tail _ (.tail _ (.tail _ (.head _)))) (by simp)⟩
    | none =>
      exact (wp_ask (exec_createRef_put _ (hcur.trans h2))).mpr
        ⟨.fault (.tail _ (.tail _ (.tail _ (.head _)))), _, by simp; rfl, rfl⟩

variable {request : ProcessReviewRequest} {reviewNumber : ℤ} {d : Diff} {v : Revision}

theorem wp_unchanged (h : f.diff? position = some d) (hv : d.latest? = some v) :
    wp (handler g draw) F (CallsEnd F s f (f.unchangedCalls position previousSha commit d v)
        (some (f.afterUnchanged position previousSha commit d v.number)))
      (do
        ask (.updateRevisionSha ⟨⟨f.review.id, d.position⟩, v.number⟩ commit.sha previousSha)
        ask (.updateRef (getRevisionRef f.review.id.short position v.number) commit.sha)
        ask (.updateRef (getCurrentRef f.review.id.short position) commit.sha)) (s.put f) := by
  obtain rfl : d.position = position := Focus.position_of_diff? h
  have hrow : exec g draw (.updateRevisionSha ⟨⟨f.review.id, d.position⟩, v.number⟩ commit.sha
        previousSha) (s.put f) =
      (.ok (), s.put (f.withRevision previousSha commit d v.number)) :=
    exec_updateRevisionSha_put commit.sha previousSha h (Table.get?_of_last? hv)
  refine (wp_ask_bind hrow).mpr ⟨.fault (.tail _ (.tail _ (.head _))), ?_⟩
  refine (wp_ask_bind (exec_updateRef_put _ _)).mpr
    ⟨.fault (.tail _ (.tail _ (.tail _ (.head _)))), ?_⟩
  exact (wp_ask (exec_updateRef_put _ _)).mpr
    ⟨.fault (.tail _ (.tail _ (.tail _ (.tail _ (.head _))))), _, rfl, rfl⟩

theorem wp_modified (h : f.diff? position = some d) (hv : d.latest? = some v)
    (hpatch : g.patchId v.commitHash ≠ g.patchId commit.sha) :
    wp (handler g draw) F (CallsEnd F s f (f.modifiedCalls position previousSha commit d v)
        (f.pushAt g position previousSha commit))
      (do
        let newRevisionNumber := v.number + 1
        let _ ← ask (.createRevision ⟨f.review.id, d.position⟩ newRevisionNumber commit.sha
          previousSha)
        ask (.createRef (getRevisionRef f.review.id.short position newRevisionNumber) commit.sha)
        ask (.updateRef (getCurrentRef f.review.id.short position) commit.sha)
        ask (.updateDiff ⟨f.review.id, d.position⟩ (some .open) none)) (s.put f) := by
  obtain rfl : d.position = position := Focus.position_of_diff? h
  have hafter : f.pushAt g d.position previousSha commit =
      if f.refs (f.revisionRef d.position (v.number + 1)) = none then
        some (f.afterModified d.position previousSha commit d (v.number + 1)) else none := by
    simp only [Focus.pushAt, h, hv, if_neg hpatch]
  have hrow : exec g draw (.createRevision ⟨f.review.id, d.position⟩ (v.number + 1) commit.sha
        previousSha) (s.put f) =
      (.ok ⟨v.number + 1, commit.sha, previousSha⟩,
        s.put (f.withRevision previousSha commit d (v.number + 1))) :=
    exec_createRevision_put commit.sha previousSha h (Diff.get?_next hv)
  have hrev : (f.withRevision previousSha commit d (v.number + 1)).refs
      (f.revisionRef d.position (v.number + 1)) = f.refs (f.revisionRef d.position (v.number + 1)) :=
    rfl
  refine (wp_ask_bind hrow).mpr ⟨.fault (.tail _ (.tail _ (.head _))), ?_⟩
  cases h1 : f.refs (f.revisionRef d.position (v.number + 1)) with
  | some old =>
    exact (wp_ask_bind_error (exec_createRef_taken _ (hrev.trans h1))).mpr
      ⟨.fault (.tail _ (.tail _ (.tail _ (.head _)))),
        .refused (.tail _ (.tail _ (.tail _ (.head _)))) (by simp [hafter, h1])⟩
  | none =>
    refine (wp_ask_bind (exec_createRef_put _ (hrev.trans h1))).mpr
      ⟨.fault (.tail _ (.tail _ (.tail _ (.head _)))), ?_⟩
    refine (wp_ask_bind (exec_updateRef_put _ _)).mpr
      ⟨.fault (.tail _ (.tail _ (.tail _ (.tail _ (.head _))))), ?_⟩
    have hd : (f.withRevisionRefs d.position previousSha commit d (v.number + 1)).diff? d.position =
        some (d.putRevision ⟨v.number + 1, commit.sha, previousSha⟩) :=
      Focus.diff?_setDiff_self (f := f) (d.putRevision ⟨v.number + 1, commit.sha, previousSha⟩)
    exact (wp_ask (exec_updateDiff_put hd)).mpr
      ⟨.fault (.tail _ (.tail _ (.tail _ (.tail _ (.tail _ (.head _)))))), _,
        by simp only [hafter, h1, if_true]; rfl, rfl⟩

theorem wp_updateDiffAt (h : f.diff? position = some d) :
    wp (handler g draw) F (CallsEnd F s f (f.pushCalls g position previousSha commit)
        (f.pushAt g position previousSha commit))
      (updateDiffAt request reviewNumber f.review.id position previousSha commit d) (s.put f) := by
  unfold updateDiffAt Focus.pushCalls
  rw [wp_bind, wp_liftExcept]
  simp only [h]
  cases hv : d.latest? with
  | none => exact ⟨f, rfl, .inr ⟨by simp only [Focus.pushAt, h, hv], .inl rfl⟩⟩
  | some v =>
    simp only [orNotFound, andThen_ok]
    have hold : exec g draw (.getCommitPatchId v.commitHash) (s.put f) =
      (.ok (g.patchId v.commitHash), s.put f) := rfl
    have hnew : exec g draw (.getCommitPatchId commit.sha) (s.put f) =
      (.ok (g.patchId commit.sha), s.put f) := rfl
    by_cases hpatch : g.patchId v.commitHash = g.patchId commit.sha
    · rw [if_pos hpatch]
      refine (wp_ask_bind hold).mpr ⟨.fault (.head _), ?_⟩
      refine (wp_ask_bind hnew).mpr ⟨.fault (.tail _ (.head _)), ?_⟩
      have hafter : f.pushAt g position previousSha commit =
          some (f.afterUnchanged position previousSha commit d v.number) := by
        simp only [Focus.pushAt, h, hv, if_pos hpatch]
      rw [if_pos hpatch, hafter]
      exact wp_unchanged h hv
    · rw [if_neg hpatch]
      refine (wp_ask_bind hold).mpr ⟨.fault (.head _), ?_⟩
      refine (wp_ask_bind hnew).mpr ⟨.fault (.tail _ (.head _)), ?_⟩
      rw [if_neg hpatch]
      exact wp_modified h hv hpatch

/-- **One position.** The work at a position ends after its calls or at one
of them. -/
theorem wp_pushDiffAt :
    wp (handler g draw) F (CallsEnd F s f (f.pushCalls g position previousSha commit)
        (f.pushAt g position previousSha commit))
      (pushDiffAt request reviewNumber f.review.id position previousSha commit (f.diff? position))
      (s.put f) := by
  cases h : f.diff? position with
  | some d => exact wp_updateDiffAt h
  | none =>
    have : f.pushCalls g position previousSha commit = f.newCalls position previousSha commit := by
      simp only [Focus.pushCalls, h]
    rw [this]
    exact wp_createDiffAt h

/-! ### What the work at a position leaves alone -/

theorem Focus.sameBut_withRevision (hd : d.position = position) (n : ℤ) :
    SameBut position f (f.withRevision previousSha commit d n) := .setDiff hd

theorem Focus.sameBut_withRevisionRefs (hd : d.position = position) (n : ℤ) :
    SameBut position f (f.withRevisionRefs position previousSha commit d n) :=
  ((sameBut_withRevision hd n).trans (.setRevisionRef n commit.sha)).trans (.setCurrentRef commit.sha)

theorem Focus.sameBut_pushCalls {call : Call} {f' : Focus}
    (h : (call, f') ∈ f.pushCalls g position previousSha commit) : SameBut position f f' := by
  unfold pushCalls at h
  split at h
  · simp only [newCalls, List.mem_cons, Prod.mk.injEq, List.not_mem_nil, or_false] at h
    rcases h with ⟨-, rfl⟩ | ⟨-, rfl⟩ | ⟨-, rfl⟩ | ⟨-, rfl⟩
    · exact .refl _ _
    · exact .setDiff rfl
    · exact .setDiff rfl
    · exact .trans (.setDiff rfl) (.setRevisionRef _ _)
  · next d hd =>
    have hd := Focus.position_of_diff? hd
    split at h
    · cases h
    split_ifs at h
    · simp only [unchangedCalls, List.mem_cons, Prod.mk.injEq, List.not_mem_nil, or_false] at h
      rcases h with ⟨-, rfl⟩ | ⟨-, rfl⟩ | ⟨-, rfl⟩ | ⟨-, rfl⟩ | ⟨-, rfl⟩
      · exact .refl _ _
      · exact .refl _ _
      · exact .refl _ _
      · exact sameBut_withRevision hd _
      · exact (sameBut_withRevision hd _).trans (.setRevisionRef _ _)
    · simp only [modifiedCalls, List.mem_cons, Prod.mk.injEq, List.not_mem_nil, or_false] at h
      rcases h with ⟨-, rfl⟩ | ⟨-, rfl⟩ | ⟨-, rfl⟩ | ⟨-, rfl⟩ | ⟨-, rfl⟩ | ⟨-, rfl⟩
      · exact .refl _ _
      · exact .refl _ _
      · exact .refl _ _
      · exact sameBut_withRevision hd _
      · exact (sameBut_withRevision hd _).trans (.setRevisionRef _ _)
      · exact sameBut_withRevisionRefs hd _

/-- The three ways a commit is pushed to a position. -/
theorem Focus.pushAt_cases {f' : Focus} (h : f.pushAt g position previousSha commit = some f') :
    (f.diff? position = none ∧ f.refs (f.revisionRef position 1) = none ∧
      f.refs (f.currentRef position) = none ∧ f' = f.afterNew position previousSha commit) ∨
    (∃ d v, f.diff? position = some d ∧ d.latest? = some v ∧
      g.patchId v.commitHash = g.patchId commit.sha ∧
      f' = f.afterUnchanged position previousSha commit d v.number) ∨
    (∃ d v, f.diff? position = some d ∧ d.latest? = some v ∧
      g.patchId v.commitHash ≠ g.patchId commit.sha ∧
      f.refs (f.revisionRef position (v.number + 1)) = none ∧
      f' = f.afterModified position previousSha commit d (v.number + 1)) := by
  unfold pushAt at h
  split at h
  · next hd =>
    split_ifs at h with hfree
    exact .inl ⟨hd, hfree.1, hfree.2, (Option.some.inj h).symm⟩
  · next d hd =>
    split at h
    · cases h
    next v hv =>
    split_ifs at h with hp hfree
    · exact .inr (.inl ⟨d, v, hd, hv, hp, (Option.some.inj h).symm⟩)
    · exact .inr (.inr ⟨d, v, hd, hv, hp, hfree, (Option.some.inj h).symm⟩)

theorem Focus.sameBut_pushAt {f' : Focus} (h : f.pushAt g position previousSha commit = some f') :
    SameBut position f f' := by
  rcases pushAt_cases h with ⟨-, -, -, rfl⟩ | ⟨d, v, hd, -, -, rfl⟩ | ⟨d, v, hd, -, -, -, rfl⟩
  · exact sameBut_withRevisionRefs (d := newDiff position commit) rfl 1
  · exact sameBut_withRevisionRefs (position_of_diff? hd) _
  · have hd := position_of_diff? hd
    exact (sameBut_withRevisionRefs hd _).trans (.setDiff hd)

end Position

/-! ### All the commits -/

section Commits

variable (g : Git)

/-- The review and the refs after the commits, the first of them at
`position`. -/
def Focus.pushAll : ℤ → Sha → List Commit → Focus → Option Focus
  | _, _, [], f => some f
  | position, previousSha, commit :: commits, f =>
    (f.pushAt g position previousSha commit).bind
      (Focus.pushAll (position + 1) commit.sha commits)

/-- `call` is one of the calls of the push, and `f'` what it meets. -/
inductive PushCall : ℤ → Sha → List Commit → Focus → Call → Focus → Prop where
  | here {position previousSha commit commits f call f'} :
    (call, f') ∈ f.pushCalls g position previousSha commit →
      PushCall position previousSha (commit :: commits) f call f'
  | later {position previousSha commit commits f f₁ call f'} :
    f.pushAt g position previousSha commit = some f₁ →
      PushCall (position + 1) commit.sha commits f₁ call f' →
      PushCall position previousSha (commit :: commits) f call f'

/-- The push got as far as `f'`. -/
inductive PushPartly : ℤ → Sha → List Commit → Focus → Focus → Prop where
  | stop {position previousSha commits f} : PushPartly position previousSha commits f f
  | half {position previousSha commit commits f call f'} :
    (call, f') ∈ f.pushCalls g position previousSha commit →
      PushPartly position previousSha (commit :: commits) f f'
  | step {position previousSha commit commits f f₁ f'} :
    f.pushAt g position previousSha commit = some f₁ →
      PushPartly (position + 1) commit.sha commits f₁ f' →
      PushPartly position previousSha (commit :: commits) f f'

variable {g}

theorem PushCall.partly {position : ℤ} {previousSha : Sha} {commits : List Commit} {f f' : Focus}
    {call : Call} (h : PushCall g position previousSha commits f call f') :
    PushPartly g position previousSha commits f f' := by
  induction h with
  | here h => exact .half h
  | later h _ ih => exact .step h ih

theorem Focus.pushAll_cons {position : ℤ} {previousSha : Sha} {commit : Commit}
    {commits : List Commit} {f f' : Focus} :
    f.pushAll g position previousSha (commit :: commits) = some f' ↔
      ∃ f₁, f.pushAt g position previousSha commit = some f₁ ∧
        f₁.pushAll g (position + 1) commit.sha commits = some f' :=
  Option.bind_eq_some_iff

theorem Focus.pushAll_partly : ∀ {commits : List Commit} {position : ℤ} {previousSha : Sha}
    {f f' : Focus}, f.pushAll g position previousSha commits = some f' →
      PushPartly g position previousSha commits f f'
  | [], _, _, _, _, h => Option.some.inj h ▸ .stop
  | _ :: _, _, _, _, _, h => by
    obtain ⟨f₁, h₁, h⟩ := pushAll_cons.mp h
    exact .step h₁ (pushAll_partly h)

variable (g) (F : Call → RepoState → Prop) (s : RepoState) (f : Focus)
  (position : ℤ) (previousSha : Sha) (commits : List Commit)

/-- How the loop over the commits ends. -/
def PushEnds : Except ReviewError Unit → RepoState → Prop
  | .ok _, s' => ∃ f', f.pushAll g position previousSha commits = some f' ∧ s' = s.put f'
  | .error e, s' => ∃ f', s' = s.put f' ∧
    ((∃ call, PushCall g position previousSha commits f call f' ∧ F call s' ∧
        e = (callFault call).toReviewError) ∨
      (f.pushAll g position previousSha commits = none ∧
        PushPartly g position previousSha commits f f'))

variable {g F s f position previousSha commits} {draw : Uuid} {request : ProcessReviewRequest}
  {reviewNumber : ℤ} {existingDiffs : Table Diff}

/-- The loop of an update, from a position whose diffs are still those the
method found. -/
theorem wp_pushDiffs : ∀ {commits : List Commit} {position : ℤ} {previousSha : Sha} {f : Focus},
    (∀ k, position ≤ k → existingDiffs.get? k = f.diff? k) →
    wp (handler g draw) F (PushEnds g F s f position previousSha commits)
      (pushDiffs request reviewNumber f.review.id existingDiffs position previousSha commits)
      (s.put f)
  | [], _, _, f, _ => ⟨f, rfl, rfl⟩
  | commit :: commits, position, previousSha, f, hex => by
    unfold pushDiffs
    rw [wp_bind, hex position le_rfl]
    refine wp_mono (fun r s' h => ?_) wp_pushDiffAt
    cases r with
    | error e =>
      obtain ⟨f', rfl, ⟨call, hc, hF, he⟩ | ⟨hnone, hpart⟩⟩ := h
      · exact ⟨f', rfl, .inl ⟨call, .here hc, hF, he⟩⟩
      · refine ⟨f', rfl, .inr ⟨by simp [Focus.pushAll, hnone], ?_⟩⟩
        rcases hpart with rfl | ⟨call, hc⟩
        · exact .stop
        · exact .half hc
    | ok _ =>
      obtain ⟨f₁, h₁, rfl⟩ := h
      have hsame := Focus.sameBut_pushAt h₁
      have hex₁ : ∀ k, position + 1 ≤ k → existingDiffs.get? k = f₁.diff? k := fun k hk => by
        rw [hex k (by omega), hsame.diff? k (by omega)]
      rw [andThen_ok, ← hsame.id_eq]
      refine wp_mono (fun r s' h => ?_) (wp_pushDiffs hex₁)
      cases r with
      | error e =>
        obtain ⟨f', rfl, ⟨call, hc, hF, he⟩ | ⟨hnone, hpart⟩⟩ := h
        · exact ⟨f', rfl, .inl ⟨call, .later h₁ hc, hF, he⟩⟩
        · exact ⟨f', rfl, .inr ⟨by simp [Focus.pushAll, h₁, hnone], .step h₁ hpart⟩⟩
      | ok _ =>
        obtain ⟨f', h', rfl⟩ := h
        exact ⟨f', Focus.pushAll_cons.mpr ⟨f₁, h₁, h'⟩, rfl⟩

/-- The loop of `create_review` is that of an update that finds no diffs. -/
theorem createDiffs_eq (request : ProcessReviewRequest) (reviewNumber : ℤ) (id : Uuid) : ∀ (commits : List Commit) (position : ℤ) (previousSha : Sha),
    createDiffs id position previousSha commits =
      pushDiffs request reviewNumber id .empty position previousSha commits
  | [], _, _ => rfl
  | _ :: commits, _, _ => by
    unfold createDiffs pushDiffs
    rw [createDiffs_eq request reviewNumber id commits]
    rfl

/-- A push leaves the columns of the review alone. -/
theorem PushPartly.review {position : ℤ} {previousSha : Sha} {commits : List Commit}
    {f f' : Focus} (h : PushPartly g position previousSha commits f f') :
    f'.review = { f.review with diffs := f'.review.diffs } := by
  induction h with
  | stop => rfl
  | half h => exact (Focus.sameBut_pushCalls h).review
  | step h _ ih => rw [ih, (Focus.sameBut_pushAt h).review]

theorem PushPartly.id_eq {position : ℤ} {previousSha : Sha} {commits : List Commit}
    {f f' : Focus} (h : PushPartly g position previousSha commits f f') :
    f'.review.id = f.review.id := by rw [h.review]

end Commits

/-! ### The two methods -/

section Methods

variable (g : Git) (s : RepoState) (request : ProcessReviewRequest)

/-- What a push brings: the tip of its target branch and its commits, oldest
first. -/
structure Pushes (targetSha : Sha) (commits : List Commit) : Prop where
  target : s.refs (getTargetRef request.targetBranch) = some targetSha
  commits_eq : commits = (g.revList targetSha request.newSha).reverse
  ne_nil : commits ≠ []

/-- What an update finds: the review of its number, and what is pushed. -/
structure UpdateInput (number : ℤ) (review : Review) (targetSha : Sha) (commits : List Commit) :
    Prop where
  number_eq : request.number? = .ok number
  found : s.getReviewByNumber number = some review
  pushes : Pushes g s request targetSha commits

/-- How `create_review` ends when `draw` is drawn for the id. -/
inductive CreateOutcome (draw : Uuid) : Except ReviewError Review → RepoState → Prop where
  | refused (e : ReviewError) : CreateOutcome draw (.error e) s
  | stopped {targetSha commits f} (e : ReviewError) (hp : Pushes g s request targetSha commits)
    (hnew : s.reviews.get? draw = none)
    (h : PushPartly g 1 targetSha commits
      (s.focus (s.newReview draw request.pusherId request.targetBranch)) f) :
    CreateOutcome draw (.error e) (s.put f)
  | done {targetSha commits f} (hp : Pushes g s request targetSha commits)
    (hnew : s.reviews.get? draw = none)
    (h : (s.focus (s.newReview draw request.pusherId request.targetBranch)).pushAll g 1 targetSha
      commits = some f) :
    CreateOutcome draw (.ok (s.newReview draw request.pusherId request.targetBranch))
      (s.put (f.setRef (getHeadRef draw.short) request.newSha))

variable (F : Call → RepoState → Prop)

/-- How `process_review_update` ends when the calls that `F` exposes may fail. -/
inductive UpdateOutcome : Except ReviewError Review → RepoState → Prop where
  | refused (e : ReviewError) (h : (∃ call : Call, F call s ∧ call.Idle) ∨
      ¬ ∃ number review targetSha commits,
        UpdateInput g s request number review targetSha commits) :
    UpdateOutcome (.error e) s
  | stopped {number review targetSha commits call f}
    (hi : UpdateInput g s request number review targetSha commits)
    (h : PushCall g 1 targetSha commits (s.focus review) call f) (hF : F call (s.put f)) :
    UpdateOutcome (.error (callFault call).toReviewError) (s.put f)
  | blocked {number review targetSha commits f} (e : ReviewError)
    (hi : UpdateInput g s request number review targetSha commits)
    (hnone : (s.focus review).pushAll g 1 targetSha commits = none)
    (h : PushPartly g 1 targetSha commits (s.focus review) f) :
    UpdateOutcome (.error e) (s.put f)
  | head {number review targetSha commits f} (e : ReviewError)
    (hi : UpdateInput g s request number review targetSha commits)
    (h : (s.focus review).pushAll g 1 targetSha commits = some f)
    (hF : F (.updateRef (getHeadRef review.id.short) request.newSha) (s.put f)) :
    UpdateOutcome (.error e) (s.put f)
  | late {number review targetSha commits f} (e : ReviewError)
    (hi : UpdateInput g s request number review targetSha commits)
    (h : (s.focus review).pushAll g 1 targetSha commits = some f)
    (hF : ∃ call : Call,
      F call (s.put (f.setRef (getHeadRef review.id.short) request.newSha)) ∧ call.Idle) :
    UpdateOutcome (.error e) (s.put (f.setRef (getHeadRef review.id.short) request.newSha))
  | done {number review targetSha commits f}
    (hi : UpdateInput g s request number review targetSha commits)
    (h : (s.focus review).pushAll g 1 targetSha commits = some f) :
    UpdateOutcome (.ok f.review) (s.put (f.setRef (getHeadRef review.id.short) request.newSha))

variable {g s request F} {draw : Uuid}

/-- What a push brings, computed. -/
def pushed (g : Git) (s : RepoState) (request : ProcessReviewRequest) :
    Option (Sha × List Commit) :=
  match s.refs (getTargetRef request.targetBranch) with
  | none => none
  | some targetSha =>
    let commits := (g.revList targetSha request.newSha).reverse
    if commits = [] then none else some (targetSha, commits)

theorem pushed_eq_some_iff {targetSha : Sha} {commits : List Commit} :
    pushed g s request = some (targetSha, commits) ↔ Pushes g s request targetSha commits := by
  unfold pushed
  constructor
  · intro h
    split at h
    · cases h
    · next htarget =>
      simp only at h
      split_ifs at h with hnil
      cases h
      exact ⟨htarget, rfl, hnil⟩
  · rintro ⟨htarget, rfl, hnil⟩
    simp only [htarget, if_neg hnil]

/-- What an update finds, computed. -/
def updateInput (g : Git) (s : RepoState) (request : ProcessReviewRequest) :
    Option (ℤ × Review × Sha × List Commit) :=
  match request.number? with
  | .error _ => none
  | .ok number =>
    match s.getReviewByNumber number, pushed g s request with
    | some review, some (targetSha, commits) => some (number, review, targetSha, commits)
    | _, _ => none

theorem updateInput_eq_some_iff {number : ℤ} {review : Review} {targetSha : Sha}
    {commits : List Commit} :
    updateInput g s request = some (number, review, targetSha, commits) ↔
      UpdateInput g s request number review targetSha commits := by
  unfold updateInput
  constructor
  · intro h
    split at h
    · cases h
    · next hnumber =>
      split at h
      · next hfound hpushed =>
        cases h
        exact ⟨hnumber, hfound, pushed_eq_some_iff.mp hpushed⟩
      · cases h
  · rintro ⟨hnumber, hfound, hpushes⟩
    simp only [hnumber, hfound, pushed_eq_some_iff.mpr hpushes]

theorem UpdateInput.get? {number : ℤ} {review : Review} {targetSha : Sha} {commits : List Commit}
    (h : UpdateInput g s request number review targetSha commits) :
    s.reviews.get? review.id = some review := (RepoState.mem_of_getReviewByNumber h.found).1

theorem UpdateInput.unique {n n' : ℤ} {r r' : Review} {t t' : Sha} {cs cs' : List Commit}
    (h : UpdateInput g s request n r t cs) (h' : UpdateInput g s request n' r' t' cs') :
    n = n' ∧ r = r' ∧ t = t' ∧ cs = cs' := by
  obtain rfl : n = n' := Except.ok.inj (h.number_eq.symm.trans h'.number_eq)
  obtain rfl : r = r' := Option.some.inj (h.found.symm.trans h'.found)
  obtain rfl : t = t' := Option.some.inj (h.pushes.target.symm.trans h'.pushes.target)
  exact ⟨rfl, rfl, rfl, h.pushes.commits_eq.trans h'.pushes.commits_eq.symm⟩

/-- A `?` on an answer that may be missing. -/
theorem wp_getReviewById {Q : Except ReviewError Review → RepoState → Prop} {owner repo : String}
    {number : ℤ} :
    wp (handler g draw) F Q (getReviewById owner repo number) s ↔
      (F (.getReviewByNumber number) s →
        Q (.error (callFault (.getReviewByNumber number)).toReviewError) s) ∧
      Q (orNotFound (s.getReviewByNumber number) "review" s!"{owner}/{repo}/review/{number}") s := by
  have hx : exec g draw (.getReviewByNumber number) s = (.ok (s.getReviewByNumber number), s) := rfl
  unfold getReviewById
  rw [wp_ask_bind hx, wp_liftExcept]

/-- What is left of an update once the diffs are pushed. -/
theorem wp_afterPush {number : ℤ} {review : Review} {targetSha : Sha} {commits : List Commit}
    {f : Focus} (hi : UpdateInput g s request number review targetSha commits)
    (hall : (s.focus review).pushAll g 1 targetSha commits = some f) :
    wp (handler g draw) F (UpdateOutcome g s request F)
      (do
        ask (.updateRef (getHeadRef review.id.short) request.newSha)
        ask (.updateReview review.id none none none)
        getReviewById request.owner request.repo number) (s.put f) := by
  have hpart := Focus.pushAll_partly hall
  have hid : f.review.id = review.id := hpart.id_eq
  have hnumber : f.review.number = number :=
    hpart.review ▸ (RepoState.mem_of_getReviewByNumber hi.found).2
  have hfound : (s.put (f.setRef (getHeadRef review.id.short)
      request.newSha)).getReviewByNumber number = some f.review :=
    RepoState.getReviewByNumber_put hi.found hid hnumber
  refine (wp_ask_bind (exec_updateRef_put _ _)).mpr ⟨fun hF => .head _ hi hall hF, ?_⟩
  refine (wp_ask_bind (exec_updateReview_none _)).mpr
    ⟨fun hF => .late _ hi hall ⟨_, hF, trivial⟩, ?_⟩
  refine wp_getReviewById.mpr ⟨fun hF => .late _ hi hall ⟨_, hF, trivial⟩, ?_⟩
  rw [hfound]
  exact .done hi hall

/-- **Update.** Every run of `process_review_update` ends as an `UpdateOutcome`. -/
theorem wp_processReviewUpdate :
    wp (handler g draw) F (UpdateOutcome g s request F) (processReviewUpdate request) s := by
  unfold processReviewUpdate
  rw [wp_bind, wp_liftExcept]
  have hrefuse : ∀ e (call : Call), F call s → call.Idle →
      UpdateOutcome g s request F (.error e) s :=
    fun e call hF hidle => .refused e (.inl ⟨call, hF, hidle⟩)
  cases hnum : request.number? with
  | error e =>
    refine .refused e (.inr ?_)
    rintro ⟨_, _, _, _, hi⟩
    cases hnum.symm.trans hi.number_eq
  | ok number =>
    rw [andThen_ok, wp_bind, wp_getReviewById]
    refine ⟨fun hF => hrefuse _ _ hF trivial, ?_⟩
    cases hrev : s.getReviewByNumber number with
    | none =>
      refine .refused _ (.inr ?_)
      rintro ⟨_, _, _, _, hi⟩
      obtain rfl : number = _ := Except.ok.inj (hnum.symm.trans hi.number_eq)
      cases hrev.symm.trans hi.found
    | some review =>
      rw [orNotFound, andThen_ok]
      cases htip : s.refs (getTargetRef request.targetBranch) with
      | none =>
        refine (wp_ask_bind_error (exec_resolveRefSha_missing htip)).mpr
          ⟨fun hF => hrefuse _ _ hF trivial, .refused _ (.inr ?_)⟩
        rintro ⟨_, _, _, _, hi⟩
        cases htip.symm.trans hi.pushes.target
      | some targetSha =>
        have hl : exec g draw (.revList targetSha request.newSha) s =
          (.ok (g.revList targetSha request.newSha), s) := rfl
        refine (wp_ask_bind (exec_resolveRefSha htip)).mpr ⟨fun hF => hrefuse _ _ hF trivial, ?_⟩
        refine (wp_ask_bind hl).mpr ⟨fun hF => hrefuse _ _ hF trivial, ?_⟩
        rw [wp_ite]
        split_ifs with hnil
        · refine .refused _ (.inr ?_)
          rintro ⟨_, _, _, _, hi⟩
          obtain rfl : targetSha = _ := Option.some.inj (htip.symm.trans hi.pushes.target)
          exact hi.pushes.ne_nil (by rw [hi.pushes.commits_eq, hnil]; rfl)
        have hi : UpdateInput g s request number review targetSha
            (g.revList targetSha request.newSha).reverse :=
          ⟨hnum, hrev, htip, rfl, by simpa using hnil⟩
        have hput : s.put (s.focus review) = s := RepoState.put_focus hi.get?
        rw [wp_bind]
        conv => arg 5; rw [← hput]
        refine wp_mono (fun r s' h => ?_) (wp_pushDiffs (f := s.focus review) fun _ _ => rfl)
        cases r with
        | error e =>
          obtain ⟨f, rfl, ⟨call, hc, hF, rfl⟩ | ⟨hnone, hpart⟩⟩ := h
          · exact .stopped hi hc hF
          · exact .blocked e hi hnone hpart
        | ok _ =>
          obtain ⟨f, hall, rfl⟩ := h
          exact wp_afterPush hi hall

/-- **Create.** Every run of `create_review` ends as a `CreateOutcome`. -/
theorem wp_createReview :
    wp (handler g draw) F (CreateOutcome g s request draw) (createReview request) s := by
  unfold createReview
  have hrefuse : ∀ e, CreateOutcome g s request draw (.error e) s := .refused
  cases htip : s.refs (getTargetRef request.targetBranch) with
  | none =>
    exact (wp_ask_bind_error (exec_resolveRefSha_missing htip)).mpr ⟨fun _ => hrefuse _, hrefuse _⟩
  | some targetSha =>
    have hl : exec g draw (.revList targetSha request.newSha) s =
      (.ok (g.revList targetSha request.newSha), s) := rfl
    have hrepo : exec g draw .getRepository s = (.ok s.repository, s) := rfl
    refine (wp_ask_bind (exec_resolveRefSha htip)).mpr ⟨fun _ => hrefuse _, ?_⟩
    refine (wp_ask_bind hl).mpr ⟨fun _ => hrefuse _, ?_⟩
    rw [wp_ite]
    split_ifs with hnil
    · exact hrefuse _
    refine (wp_ask_bind hrepo).mpr ⟨fun _ => hrefuse _, ?_⟩
    rw [wp_bind, wp_liftExcept]
    have hp : Pushes g s request targetSha (g.revList targetSha request.newSha).reverse :=
      ⟨htip, rfl, by simpa using hnil⟩
    cases s.repository with
    | none => exact hrefuse _
    | some repository =>
      rw [orNotFound, andThen_ok]
      let review := s.newReview draw request.pusherId request.targetBranch
      cases hnew : s.reviews.get? draw with
      | some old =>
        exact (wp_ask_bind_error (exec_createReview_taken _ _ _ hnew)).mpr
          ⟨fun _ => hrefuse _, hrefuse _⟩
      | none =>
        refine (wp_ask_bind (exec_createReview_put _ _ _ hnew)).mpr ⟨fun _ => hrefuse _, ?_⟩
        rw [wp_bind, createDiffs_eq request 0]
        refine wp_mono (fun r s' h => ?_) (wp_pushDiffs (f := s.focus review) fun _ _ => rfl)
        cases r with
        | error e =>
          obtain ⟨f, rfl, ⟨call, hc, -, rfl⟩ | ⟨-, hpart⟩⟩ := h
          · exact .stopped _ hp hnew hc.partly
          · exact .stopped _ hp hnew hpart
        | ok _ =>
          obtain ⟨f, hall, rfl⟩ := h
          have hpart := Focus.pushAll_partly hall
          cases href : f.refs (getHeadRef review.id.short) with
          | some old =>
            exact (wp_ask_bind_error (exec_createRef_taken _ href)).mpr
              ⟨fun _ => .stopped _ hp hnew hpart, .stopped _ hp hnew hpart⟩
          | none =>
            exact (wp_ask_bind (exec_createRef_put _ href)).mpr
              ⟨fun _ => .stopped _ hp hnew hpart, .done hp hnew hall⟩

end Methods
end Gitdot
