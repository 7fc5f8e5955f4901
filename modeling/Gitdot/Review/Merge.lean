/-
# What a merge does

`merge_review_diff` lands the selected diffs (`Landing`: by fast-forward, or
by rebasing them one after the other), moves the target branch, marks the
diffs merged and closes the review if no diff is left. Whatever calls fail,
it ends in one of the states on that way (`wp_mergeReviewDiff`); a conflict
leaves the diffs before it rebased (`RebaseConflict`).

Key definitions: `Focus.rebaseAll`, `RebasePartly`, `RebaseConflict`,
`Landing`, `Focus.markAll`, `MergeInput`, `MergeOutcome`.
Key theorems: `wp_rebaseDiffs`, `wp_markMerged`, `wp_mergeReviewDiff`.
-/
import Gitdot.Review.Push

namespace Gitdot

open Lib Prog

/-- Not the error of a merge that is refused for a conflict. -/
def ReviewError.IsNotMergeable : ReviewError → Prop
  | .diffNotMergeable _ => True
  | _ => False

theorem not_isNotMergeable_fault (c : Call) :
    ¬ ((callFault c).toReviewError).IsNotMergeable := by
  cases c <;> exact id

/-! ### Rebasing -/

namespace Focus

variable (g : Git) (f : Focus)

/-- The latest revision `v` of the diff `d` rewritten to the commit `newSha`. -/
def withRebasedRow (d : Diff) (v : Revision) (newParentSha newSha : Sha) : Focus :=
  f.setDiff (d.putRevision ⟨v.number, newSha, newParentSha⟩)

/-- One diff rebased: its row, and the ref of its latest revision. -/
def rebaseAt (d : Diff) (v : Revision) (newParentSha newSha : Sha) : Focus :=
  (f.withRebasedRow d v newParentSha newSha).setRef (f.currentRef d.position) newSha

/-- All the diffs rebased, and the last rebased commit. -/
def rebaseAll : Sha → List (Diff × Revision) → Focus → Option (Focus × Sha)
  | newParentSha, [], f => some (f, newParentSha)
  | newParentSha, (d, v) :: rest, f =>
    match g.cherryPickCommit v.commitHash newParentSha with
    | .ok newSha => rebaseAll newSha rest (f.rebaseAt d v newParentSha newSha)
    | .error _ => none

end Focus

/-- The rebase got as far as `f'`. -/
inductive RebasePartly (g : Git) : Sha → List (Diff × Revision) → Focus → Focus → Prop where
  | stop {newParentSha sel f} : RebasePartly g newParentSha sel f f
  | half {newParentSha newSha d v rest f} :
    g.cherryPickCommit v.commitHash newParentSha = .ok newSha →
      RebasePartly g newParentSha ((d, v) :: rest) f (f.withRebasedRow d v newParentSha newSha)
  | step {newParentSha newSha d v rest f f'} :
    g.cherryPickCommit v.commitHash newParentSha = .ok newSha →
      RebasePartly g newSha rest (f.rebaseAt d v newParentSha newSha) f' →
      RebasePartly g newParentSha ((d, v) :: rest) f f'

/-- `k` diffs are rebased, giving `f'`, and the next one conflicts. -/
inductive RebaseConflict (g : Git) : Sha → List (Diff × Revision) → Focus → ℕ → Focus → Prop where
  | here {newParentSha d v rest f m} :
    g.cherryPickCommit v.commitHash newParentSha = .error (.mergeConflict m) →
      RebaseConflict g newParentSha ((d, v) :: rest) f 0 f
  | later {newParentSha newSha d v rest f k f'} :
    g.cherryPickCommit v.commitHash newParentSha = .ok newSha →
      RebaseConflict g newSha rest (f.rebaseAt d v newParentSha newSha) k f' →
      RebaseConflict g newParentSha ((d, v) :: rest) f (k + 1) f'

/-- The selected diffs are rows of the focus, each once, and `v` is the latest
revision of `d`. -/
structure Selects (f : Focus) (sel : List (Diff × Revision)) : Prop where
  nodup : (sel.map fun p => p.1.position).Nodup
  diff? : ∀ p ∈ sel, f.diff? p.1.position = some p.1
  latest : ∀ p ∈ sel, p.1.latest? = some p.2

namespace Selects

variable {f f' : Focus} {d : Diff} {v : Revision} {sel : List (Diff × Revision)}

/-- The rest stays selected when the first diff is worked on. -/
theorem tail (h : Selects f ((d, v) :: sel)) (hsame : f.SameBut d.position f') : Selects f' sel where
  nodup := (List.nodup_cons.mp h.nodup).2
  diff? p hp := by
    have hne : p.1.position ≠ d.position := fun he =>
      (List.nodup_cons.mp h.nodup).1 (List.mem_map.mpr ⟨p, hp, he⟩)
    rw [hsame.diff? _ hne]
    exact h.diff? p (.tail _ hp)
  latest p hp := h.latest p (.tail _ hp)

theorem head (h : Selects f ((d, v) :: sel)) : f.diff? d.position = some d ∧ d.latest? = some v :=
  ⟨h.diff? _ (.head _), h.latest _ (.head _)⟩

end Selects

section Rebase

variable {g : Git} {draw : Uuid} {F : Call → RepoState → Prop} {s : RepoState}

theorem Focus.sameBut_rebaseAt (f : Focus) (d : Diff) (v : Revision) (p n : Sha) :
    f.SameBut d.position (f.rebaseAt d v p n) :=
  SameBut.trans (.setDiff (d := d.putRevision ⟨v.number, n, p⟩) rfl) (.setCurrentRef n)

/-- Some call is exposed to failure. -/
def Faulty (F : Call → RepoState → Prop) : Prop := ∃ call s, F call s

/-- How the rebase loop ends. -/
def RebaseEnds (g : Git) (F : Call → RepoState → Prop) (s : RepoState) (newParentSha : Sha)
    (sel : List (Diff × Revision)) (f : Focus) : Except ReviewError Sha → RepoState → Prop
  | .ok sha, s' => ∃ f', f.rebaseAll g newParentSha sel = some (f', sha) ∧ s' = s.put f'
  | .error e, s' => ∃ f', s' = s.put f' ∧ RebasePartly g newParentSha sel f f' ∧
    (Faulty F ∨ f.rebaseAll g newParentSha sel = none) ∧
    (e.IsNotMergeable → ∃ k, RebaseConflict g newParentSha sel f k f')

/-- **Rebase.** Every run of the loop rebases all the diffs, or stops on the
way. -/
theorem wp_rebaseDiffs : ∀ {sel : List (Diff × Revision)} (newParentSha : Sha) {f : Focus},
    Selects f sel →
    wp (handler g draw) F (RebaseEnds g F s newParentSha sel f)
      (rebaseDiffs f.review.id newParentSha sel) (s.put f)
  | [], _, f, _ => ⟨f, rfl, rfl⟩
  | (d, v) :: rest, newParentSha, f, hsel => by
    have hstop : ∀ c s' f', F c s' → RebasePartly g newParentSha ((d, v) :: rest) f f' →
        RebaseEnds g F s newParentSha ((d, v) :: rest) f
          (.error (callFault c).toReviewError) (s.put f') :=
      fun c s' f' hF h =>
        ⟨f', rfl, h, .inl ⟨c, s', hF⟩, fun hm => absurd hm (not_isNotMergeable_fault c)⟩
    unfold rebaseDiffs
    rw [wp_bind, wp_perform]
    refine ⟨fun hF => hstop (.cherryPickCommit v.commitHash newParentSha) _ _ hF .stop, ?_⟩
    have hx : exec g draw (.cherryPickCommit v.commitHash newParentSha) (s.put f) =
      ((g.cherryPickCommit v.commitHash newParentSha).mapError .git, s.put f) := rfl
    rw [handler_exec, hx]
    cases hpick : g.cherryPickCommit v.commitHash newParentSha with
    | error e =>
      refine ⟨f, rfl, .stop, .inr (by simp only [Focus.rebaseAll, hpick]), fun hm => ⟨0, ?_⟩⟩
      cases e with
      | mergeConflict m => exact .here hpick
      | notFound m => exact hm.elim
      | git2Error m => exact hm.elim
    | ok newSha =>
      have hrow : exec g draw (.updateRevisionSha ⟨⟨f.review.id, d.position⟩, v.number⟩ newSha
            newParentSha) (s.put f) =
          (.ok (), s.put (f.withRebasedRow d v newParentSha newSha)) :=
        exec_updateRevisionSha_put newSha newParentSha hsel.head.1 (Table.get?_of_last? hsel.head.2)
      refine (wp_ask_bind hrow).mpr ⟨fun hF => hstop _ _ _ hF .stop, ?_⟩
      refine (wp_ask_bind (exec_updateRef_put _ _)).mpr
        ⟨fun hF => hstop _ _ _ hF (.half hpick), ?_⟩
      have hsame := f.sameBut_rebaseAt d v newParentSha newSha
      have ih := wp_rebaseDiffs newSha (hsel.tail hsame)
      rw [hsame.id_eq] at ih
      refine wp_mono (fun r s' h => ?_) ih
      cases r with
      | ok sha =>
        obtain ⟨f', hall, rfl⟩ := h
        exact ⟨f', by simpa only [Focus.rebaseAll, hpick] using hall, rfl⟩
      | error e =>
        obtain ⟨f', rfl, hpart, hwhy, hconf⟩ := h
        have hall : f.rebaseAll g newParentSha ((d, v) :: rest) =
            (f.rebaseAt d v newParentSha newSha).rebaseAll g newSha rest := by
          simp only [Focus.rebaseAll, hpick]
        refine ⟨f', rfl, .step hpick hpart, hall ▸ hwhy, fun hm => ?_⟩
        obtain ⟨k, hk⟩ := hconf hm
        exact ⟨k + 1, .later hpick hk⟩

theorem Focus.rebaseAll_partly : ∀ {sel : List (Diff × Revision)} {newParentSha sha : Sha}
    {f f' : Focus}, f.rebaseAll g newParentSha sel = some (f', sha) →
      RebasePartly g newParentSha sel f f'
  | [], _, _, _, _, h => by cases h; exact .stop
  | (d, v) :: rest, newParentSha, _, f, _, h => by
    unfold rebaseAll at h
    split at h
    · next newSha hpick => exact .step hpick (rebaseAll_partly h)
    · cases h

theorem RebasePartly.review {newParentSha : Sha} {sel : List (Diff × Revision)} {f f' : Focus}
    (h : RebasePartly g newParentSha sel f f') :
    f'.review = { f.review with diffs := f'.review.diffs } := by
  induction h with
  | stop => rfl
  | half => rfl
  | step _ _ ih => rw [ih]; rfl

theorem RebasePartly.id_eq {newParentSha : Sha} {sel : List (Diff × Revision)} {f f' : Focus}
    (h : RebasePartly g newParentSha sel f f') : f'.review.id = f.review.id := by rw [h.review]

end Rebase

/-! ### Marking -/

namespace Focus

variable (f : Focus)

/-- The diff at a position marked merged. -/
def markMerged (position : ℤ) : Focus :=
  match f.diff? position with
  | some d => f.setDiff { d with status := .merged }
  | none => f

/-- The diffs marked merged, one after the other. -/
def markAll : List (Diff × Revision) → Focus → Focus
  | [], f => f
  | (d, _) :: rest, f => markAll rest (f.markMerged d.position)

/-- The review's status overwritten, if one is given. -/
def setStatus (status : Option ReviewStatus) : Focus :=
  { f with review := { f.review with status := status.getD f.review.status } }

variable {f}

theorem diff?_markMerged (p k : ℤ) :
    (f.markMerged p).diff? k =
      if k = p then (f.diff? p).map fun d => { d with status := .merged } else f.diff? k := by
  unfold markMerged
  cases h : f.diff? p with
  | none =>
    split_ifs with hk
    · rw [hk, h]
      rfl
    · rfl
  | some d =>
    have hd := position_of_diff? h
    simp only [diff?_setDiff, hd, Option.map_some]

theorem markMerged_review (p : ℤ) :
    (f.markMerged p).review = { f.review with diffs := (f.markMerged p).review.diffs } := by
  unfold markMerged
  split <;> rfl

@[simp] theorem markMerged_refs (p : ℤ) : (f.markMerged p).refs = f.refs := by
  unfold markMerged
  split <;> rfl

@[simp] theorem markAll_refs : ∀ (sel : List (Diff × Revision)) (f : Focus),
    (f.markAll sel).refs = f.refs
  | [], _ => rfl
  | (d, _) :: rest, f => by
    unfold markAll
    rw [markAll_refs rest, markMerged_refs]

theorem markAll_review : ∀ (sel : List (Diff × Revision)) (f : Focus),
    (f.markAll sel).review = { f.review with diffs := (f.markAll sel).review.diffs }
  | [], _ => rfl
  | (d, _) :: rest, f => by
    unfold markAll
    rw [markAll_review rest, markMerged_review]

theorem markAll_id (sel : List (Diff × Revision)) (f : Focus) :
    (f.markAll sel).review.id = f.review.id := by rw [markAll_review]

/-- Marking changes the status of the selected diffs and nothing else. -/
theorem diff?_markAll : ∀ (sel : List (Diff × Revision)) (f : Focus) (k : ℤ),
    (f.markAll sel).diff? k =
      if k ∈ sel.map (fun p => p.1.position) then
        (f.diff? k).map fun d => { d with status := .merged }
      else f.diff? k
  | [], _, _ => by simp [markAll]
  | (d, v) :: rest, f, k => by
    unfold markAll
    rw [diff?_markAll rest, diff?_markMerged]
    simp only [List.map_cons, List.mem_cons]
    by_cases hk : k = d.position
    · subst hk
      cases f.diff? d.position <;> simp
    · simp only [hk, if_false, false_or]

@[simp] theorem setStatus_refs (status : Option ReviewStatus) : (f.setStatus status).refs = f.refs :=
  rfl
@[simp] theorem setStatus_diff? (status : Option ReviewStatus) (k : ℤ) :
    (f.setStatus status).diff? k = f.diff? k := rfl

end Focus

section Mark

variable {g : Git} {draw : Uuid} {F : Call → RepoState → Prop} {s : RepoState} {f : Focus}

theorem exec_markMerged_put (position : ℤ) :
    exec g draw (.updateDiff ⟨f.review.id, position⟩ (some .merged) none) (s.put f) =
      (.ok (), s.put (f.markMerged position)) := by
  unfold Focus.markMerged
  cases h : f.diff? position with
  | some d => exact exec_updateDiff_put h
  | none =>
    have hnone : f.review.diffs.get? position = none := h
    simp only [exec, RepoState.updateDiff, RepoState.setDiffs_put]
    rw [Table.modify_eq_self fun d hd => by rw [hnone] at hd; cases hd]

/-- How the loop that marks the diffs ends: with all of them marked, or with
those before a call that failed. -/
def MarkEnds (F : Call → RepoState → Prop) (s : RepoState) (sel : List (Diff × Revision))
    (f : Focus) : Except ReviewError Unit → RepoState → Prop
  | .ok _, s' => s' = s.put (f.markAll sel)
  | .error e, s' => ¬ e.IsNotMergeable ∧ Faulty F ∧
    ∃ done rest p, sel = done ++ p :: rest ∧ s' = s.put (f.markAll done)

theorem wp_markMerged : ∀ {sel : List (Diff × Revision)} {f : Focus},
    wp (handler g draw) F (MarkEnds F s sel f) (markMerged f.review.id sel) (s.put f)
  | [], _ => rfl
  | (d, v) :: rest, f => by
    unfold markMerged
    refine (wp_ask_bind (exec_markMerged_put _)).mpr
      ⟨fun hF => ⟨not_isNotMergeable_fault _, ⟨_, _, hF⟩, [], rest, (d, v), rfl, rfl⟩, ?_⟩
    have hid : (f.markMerged d.position).review.id = f.review.id := by rw [Focus.markMerged_review]
    rw [← hid]
    refine wp_mono (fun r s' h => ?_) wp_markMerged
    cases r with
    | ok _ => exact h
    | error e =>
      obtain ⟨he, hF, done, rest', p, rfl, rfl⟩ := h
      exact ⟨he, hF, (d, v) :: done, rest', p, rfl, rfl⟩

end Mark

/-! ### The method -/

/-- What a merge finds: an open review, the diffs it selects with their latest
revisions, and the tip of the review's target branch. -/
structure MergeInput (s : RepoState) (request : MergeReviewDiffRequest) (review : Review)
    (first : Diff × Revision) (rest : List (Diff × Revision)) (targetSha : Sha) : Prop where
  found : s.getReviewByNumber request.number = some review
  isOpen : review.status = .open
  selected : (first :: rest).map Prod.fst = diffsToMerge review request.position
  latest : ∀ p ∈ first :: rest, p.1.latest? = some p.2
  target : s.refs (getTargetRef review.targetBranch) = some targetSha

/-- The selected diffs landed: `commit` is what the target branch is to point
at, and `f'` what is left of the focus `f`. -/
def Landing (g : Git) (f : Focus) (targetSha : Sha) (first : Diff × Revision)
    (rest : List (Diff × Revision)) (f' : Focus) (commit : Sha) : Prop :=
  (targetSha = first.2.parentHash ∧ f' = f ∧ commit = (rest.getLastD first).2.commitHash) ∨
    (targetSha ≠ first.2.parentHash ∧
      f.rebaseAll g targetSha (first :: rest) = some (f', commit))

/-- The new status of the review of a merge: `all_merged`. -/
def closing (review : Review) (position : ℤ) : Option ReviewStatus :=
  if review.diffs.rows.all fun d => d.status = .merged ∨ d.position ≤ position then some .closed
  else none

/-- The state of the focus after its target branch moved. -/
def Focus.moveTarget (f : Focus) (commit : Sha) : Focus :=
  f.setRef (getTargetRef f.review.targetBranch) commit

/-- How `merge_review_diff` ends when the calls that `F` exposes may fail. -/
inductive MergeOutcome (g : Git) (s : RepoState) (request : MergeReviewDiffRequest)
    (F : Call → RepoState → Prop) : Except ReviewError Review → RepoState → Prop where
  | refused (e : ReviewError) (he : e.IsNotMergeable →
      ∀ review, s.getReviewByNumber request.number = some review → review.status ≠ .open) :
    MergeOutcome g s request F (.error e) s
  | rebasing {review first rest targetSha f} (e : ReviewError)
    (hi : MergeInput s request review first rest targetSha)
    (hne : targetSha ≠ first.2.parentHash)
    (h : RebasePartly g targetSha (first :: rest) (s.focus review) f)
    (hwhy : Faulty F ∨ (s.focus review).rebaseAll g targetSha (first :: rest) = none)
    (he : e.IsNotMergeable →
      ∃ k, RebaseConflict g targetSha (first :: rest) (s.focus review) k f) :
    MergeOutcome g s request F (.error e) (s.put f)
  | landed {review first rest targetSha f commit} (e : ReviewError)
    (hi : MergeInput s request review first rest targetSha)
    (h : Landing g (s.focus review) targetSha first rest f commit) (he : ¬ e.IsNotMergeable)
    (hF : Faulty F) : MergeOutcome g s request F (.error e) (s.put f)
  | marking {review first rest targetSha f commit done p todo} (e : ReviewError)
    (hi : MergeInput s request review first rest targetSha)
    (h : Landing g (s.focus review) targetSha first rest f commit) (he : ¬ e.IsNotMergeable)
    (hF : Faulty F) (hsel : first :: rest = done ++ p :: todo) :
    MergeOutcome g s request F (.error e) (s.put ((f.moveTarget commit).markAll done))
  | marked {review first rest targetSha f commit} (e : ReviewError)
    (hi : MergeInput s request review first rest targetSha)
    (h : Landing g (s.focus review) targetSha first rest f commit) (he : ¬ e.IsNotMergeable)
    (hF : F (.updateReview review.id (closing review request.position) none none)
      (s.put ((f.moveTarget commit).markAll (first :: rest)))) :
    MergeOutcome g s request F (.error e) (s.put ((f.moveTarget commit).markAll (first :: rest)))
  | closed {review first rest targetSha f commit} (e : ReviewError)
    (hi : MergeInput s request review first rest targetSha)
    (h : Landing g (s.focus review) targetSha first rest f commit) (he : ¬ e.IsNotMergeable) :
    MergeOutcome g s request F (.error e) (s.put
      (((f.moveTarget commit).markAll (first :: rest)).setStatus (closing review request.position)))
  | done {review first rest targetSha f commit} (review' : Review)
    (hi : MergeInput s request review first rest targetSha)
    (h : Landing g (s.focus review) targetSha first rest f commit) :
    MergeOutcome g s request F (.ok review') (s.put
      (((f.moveTarget commit).markAll (first :: rest)).setStatus (closing review request.position)))

section Method

variable {g : Git} {draw : Uuid} {F : Call → RepoState → Prop} {s : RepoState}
  {request : MergeReviewDiffRequest}

theorem withRevision_eq_ok {d : Diff} {p : Diff × Revision} (h : withRevision d = .ok p) :
    p.1 = d ∧ d.latest? = some p.2 := by
  unfold withRevision at h
  cases hv : d.latest? with
  | none =>
    rw [hv] at h
    cases h
  | some v =>
    rw [hv] at h
    cases h
    exact ⟨rfl, rfl⟩

theorem mapM_withRevision_eq_ok : ∀ {ds : List Diff} {l : List (Diff × Revision)},
    ds.mapM withRevision = .ok l → l.map Prod.fst = ds ∧ ∀ p ∈ l, p.1.latest? = some p.2
  | [], l, h => by
    cases h
    exact ⟨rfl, fun _ hp => by cases hp⟩
  | d :: ds, l, h => by
    rw [List.mapM_cons] at h
    cases hd : withRevision d with
    | error e =>
      rw [hd] at h
      cases h
    | ok p =>
      cases hds : ds.mapM withRevision with
      | error e =>
        rw [hd, hds] at h
        cases h
      | ok l' =>
        rw [hd, hds] at h
        cases h
        obtain ⟨rfl, hv⟩ := withRevision_eq_ok hd
        obtain ⟨hmap, hl⟩ := mapM_withRevision_eq_ok hds
        exact ⟨by rw [List.map_cons, hmap], List.forall_mem_cons.mpr ⟨hv, hl⟩⟩

theorem withRevision_eq_error {d : Diff} {e : ReviewError} (h : withRevision d = .error e) :
    ¬ e.IsNotMergeable := by
  unfold withRevision at h
  cases hv : d.latest? with
  | none =>
    rw [hv] at h
    cases h
    exact id
  | some v =>
    rw [hv] at h
    cases h

theorem mapM_withRevision_eq_error : ∀ {ds : List Diff} {e : ReviewError},
    ds.mapM withRevision = .error e → ¬ e.IsNotMergeable
  | [], _, h => by cases h
  | d :: ds, e, h => by
    rw [List.mapM_cons] at h
    cases hd : withRevision d with
    | error e' =>
      rw [hd] at h
      cases h
      exact withRevision_eq_error hd
    | ok p =>
      cases hds : ds.mapM withRevision with
      | error e' =>
        rw [hd, hds] at h
        cases h
        exact mapM_withRevision_eq_error hds
      | ok l =>
        rw [hd, hds] at h
        cases h

theorem mapM_withRevision_of_latest : ∀ {l : List (Diff × Revision)},
    (∀ p ∈ l, p.1.latest? = some p.2) → (l.map Prod.fst).mapM withRevision = .ok l
  | [], _ => rfl
  | p :: l, h => by
    have hp : withRevision p.1 = .ok p := by
      unfold withRevision
      rw [h p (.head _)]
      rfl
    rw [List.map_cons, List.mapM_cons, hp,
      mapM_withRevision_of_latest fun q hq => h q (.tail _ hq)]
    rfl

/-- What a merge finds, computed. -/
def mergeInput (s : RepoState) (request : MergeReviewDiffRequest) :
    Option (Review × (Diff × Revision) × List (Diff × Revision) × Sha) :=
  match s.getReviewByNumber request.number with
  | none => none
  | some review =>
    if review.status = .open then
      match (diffsToMerge review request.position).mapM withRevision,
        s.refs (getTargetRef review.targetBranch) with
      | .ok (first :: rest), some targetSha => some (review, first, rest, targetSha)
      | _, _ => none
    else none

theorem mergeInput_eq_some_iff {review : Review} {first : Diff × Revision}
    {rest : List (Diff × Revision)} {targetSha : Sha} :
    mergeInput s request = some (review, first, rest, targetSha) ↔
      MergeInput s request review first rest targetSha := by
  unfold mergeInput
  constructor
  · intro h
    split at h
    · cases h
    · next hfound =>
      split_ifs at h with hopen
      split at h
      · next hsel htarget =>
        cases h
        obtain ⟨hmap, hlatest⟩ := mapM_withRevision_eq_ok hsel
        exact ⟨hfound, hopen, hmap, hlatest, htarget⟩
      · cases h
  · rintro ⟨hfound, hopen, hsel, hlatest, htarget⟩
    have := mapM_withRevision_of_latest hlatest
    simp only [hfound, hopen, if_true, ← hsel, this, htarget]

namespace MergeInput

variable {review : Review} {first : Diff × Revision} {rest : List (Diff × Revision)}
  {targetSha : Sha}

theorem get? (h : MergeInput s request review first rest targetSha) :
    s.reviews.get? review.id = some review := (RepoState.mem_of_getReviewByNumber h.found).1

/-- The selected diffs are the unmerged ones up to the position. -/
theorem mem_selected (h : MergeInput s request review first rest targetSha) {p : Diff × Revision}
    (hp : p ∈ first :: rest) :
    p.1 ∈ review.diffs.rows ∧ p.1.position ≤ request.position ∧ p.1.status ≠ .merged := by
  have : p.1 ∈ diffsToMerge review request.position := h.selected ▸ List.mem_map_of_mem hp
  simpa [diffsToMerge] using this

theorem mem_positions (h : MergeInput s request review first rest targetSha) {d : Diff}
    (hd : d ∈ review.diffs.rows) :
    d.position ∈ (first :: rest).map (fun p => p.1.position) ↔
      d.position ≤ request.position ∧ d.status ≠ .merged := by
  have hmap : (first :: rest).map (fun p => p.1.position) =
      (diffsToMerge review request.position).map Diff.position := by
    rw [← h.selected, List.map_map]
    rfl
  rw [hmap, List.mem_map]
  simp only [diffsToMerge, List.mem_filter, decide_eq_true_eq]
  constructor
  · rintro ⟨d', ⟨hd', hsel⟩, hpos⟩
    have hget := Table.get?_key hd'
    rw [key_diff, hpos] at hget
    obtain rfl : d = d' := Option.some.inj ((Table.get?_key hd).symm.trans hget)
    exact hsel
  · intro hsel
    exact ⟨d, ⟨hd, hsel⟩, rfl⟩

theorem sorted (h : MergeInput s request review first rest targetSha) :
    (first :: rest).Pairwise fun p q => p.1.position < q.1.position := by
  have : ((first :: rest).map Prod.fst).Pairwise fun a b => a.position < b.position := by
    rw [h.selected]
    exact review.diffs.sorted.filter _
  rwa [List.pairwise_map] at this

theorem selects (h : MergeInput s request review first rest targetSha) :
    Selects (s.focus review) (first :: rest) where
  nodup := List.pairwise_map.mpr (h.sorted.imp fun hlt => hlt.ne)
  diff? _ hp := Table.get?_key (h.mem_selected hp).1
  latest := h.latest

end MergeInput

theorem Landing.review {review : Review} {first : Diff × Revision} {rest : List (Diff × Revision)}
    {targetSha commit : Sha} {f : Focus}
    (h : Landing g (s.focus review) targetSha first rest f commit) :
    f.review = { review with diffs := f.review.diffs } := by
  rcases h with ⟨-, rfl, -⟩ | ⟨-, hall⟩
  · rfl
  · exact (Focus.rebaseAll_partly hall).review

/-- What is left of a merge once its diffs are landed. -/
theorem wp_landed {review : Review} {first : Diff × Revision} {rest : List (Diff × Revision)}
    {targetSha commit : Sha} {f : Focus} (hi : MergeInput s request review first rest targetSha)
    (h : Landing g (s.focus review) targetSha first rest f commit) :
    wp (handler g draw) F (MergeOutcome g s request F)
      (do
        ask (.updateRef (getTargetRef review.targetBranch) commit)
        markMerged review.id (first :: rest)
        ask (.updateReview review.id (closing review request.position) none none)
        getReviewById request.owner request.repo request.number) (s.put f) := by
  have hbranch : f.review.targetBranch = review.targetBranch := by rw [h.review]
  have hid : (f.moveTarget commit).review.id = review.id := by
    show f.review.id = review.id
    rw [h.review]
  have hmove : f.setRef (getTargetRef review.targetBranch) commit = f.moveTarget commit := by
    rw [Focus.moveTarget, hbranch]
  have hfault := fun c => not_isNotMergeable_fault c
  refine (wp_ask_bind (exec_updateRef_put _ _)).mpr ⟨fun hF => .landed _ hi h (hfault _) ⟨_, _, hF⟩, ?_⟩
  rw [hmove, wp_bind, ← hid]
  refine wp_mono (fun r s' hm => ?_) wp_markMerged
  cases r with
  | error e =>
    obtain ⟨he, hF, done, todo, p, hsel, rfl⟩ := hm
    exact .marking e hi h he hF hsel
  | ok _ =>
    have hm : s' = s.put ((f.moveTarget commit).markAll (first :: rest)) := hm
    subst hm
    rw [← Focus.markAll_id (first :: rest) (f.moveTarget commit)]
    refine (wp_ask_bind (exec_updateReview_put _ none none)).mpr ⟨fun hF => ?_, ?_⟩
    · rw [Focus.markAll_id, hid] at hF
      exact .marked _ hi h (hfault _) hF
    refine wp_getReviewById.mpr ⟨fun _ => .closed _ hi h (hfault _), ?_⟩
    cases hfound : RepoState.getReviewByNumber _ request.number with
    | none => exact .closed _ hi h id
    | some review' => exact .done review' hi h

/-- **Merge.** Every run of `merge_review_diff` ends as a `MergeOutcome`. -/
theorem wp_mergeReviewDiff :
    wp (handler g draw) F (MergeOutcome g s request F) (mergeReviewDiff request) s := by
  have hfault := fun c => not_isNotMergeable_fault c
  have hrefuse : ∀ e : ReviewError, ¬ e.IsNotMergeable →
      MergeOutcome g s request F (.error e) s :=
    fun e he => .refused e fun h => absurd h he
  unfold mergeReviewDiff
  rw [wp_bind, wp_getReviewById]
  refine ⟨fun _ => hrefuse _ (hfault _), ?_⟩
  cases hrev : s.getReviewByNumber request.number with
  | none => exact hrefuse _ id
  | some review =>
    rw [orNotFound, andThen_ok, wp_ite]
    split_ifs with hopen
    · exact .refused _ fun _ r hr => by rwa [← Option.some.inj (hrev.symm.trans hr)]
    have hopen : review.status = .open := not_not.mp hopen
    cases hsel : diffsToMerge review request.position with
    | nil => exact hrefuse _ id
    | cons d ds =>
      simp only
      rw [wp_bind, wp_liftExcept]
      cases hd : withRevision d with
      | error e => exact hrefuse _ (withRevision_eq_error hd)
      | ok first =>
        rw [andThen_ok, wp_bind, wp_liftExcept]
        cases hds : ds.mapM withRevision with
        | error e => exact hrefuse _ (mapM_withRevision_eq_error hds)
        | ok rest =>
          rw [andThen_ok]
          obtain ⟨hfirst, hlatest⟩ := withRevision_eq_ok hd
          obtain ⟨hmap, hrest⟩ := mapM_withRevision_eq_ok hds
          cases htip : s.refs (getTargetRef review.targetBranch) with
          | none =>
            exact (wp_ask_bind_error (exec_resolveRefSha_missing htip)).mpr
              ⟨fun _ => hrefuse _ (hfault _), hrefuse _ id⟩
          | some targetSha =>
            have hi : MergeInput s request review first rest targetSha :=
              ⟨hrev, hopen, by rw [List.map_cons, hfirst, hmap, hsel],
                List.forall_mem_cons.mpr ⟨hfirst ▸ hlatest, hrest⟩, htip⟩
            have hput : s.put (s.focus review) = s := RepoState.put_focus hi.get?
            refine (wp_ask_bind (exec_resolveRefSha htip)).mpr
              ⟨fun _ => hrefuse _ (hfault _), ?_⟩
            rw [wp_ite]
            by_cases hff : targetSha = first.2.parentHash
            · rw [if_pos hff]
              conv => arg 5; rw [← hput]
              exact wp_landed hi (.inl ⟨hff, rfl, rfl⟩)
            · rw [if_neg hff, wp_bind]
              conv => arg 5; rw [← hput]
              refine wp_mono (fun r s' h => ?_) (wp_rebaseDiffs targetSha hi.selects)
              cases r with
              | ok commit =>
                obtain ⟨f, hall, rfl⟩ := h
                exact wp_landed hi (.inr ⟨hff, hall⟩)
              | error e =>
                obtain ⟨f, rfl, hpart, hwhy, hconf⟩ := h
                exact .rebasing e hi hff hpart hwhy hconf

end Method
end Gitdot
