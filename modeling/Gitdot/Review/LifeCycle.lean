/-
# The life cycle of reviews and diffs

A review is closed by the merge of its last diff, and a diff goes from draft
to open to merged. Publishing looks at the status it changes; updating looks
at none and merging only at that of the review, so an update can reopen a
merged diff or add a diff to a closed review, and a merge takes diffs that are
still drafts.

In the runs in which updates give merged diffs no new patch and closed reviews
no new diff, and merges select open diffs and are not cut off before their last
write, a review is closed exactly if it has diffs and all are merged, and every
step moves every diff forward, to merged only from open (`life_cycle_kept`).

Key definitions: `ClosedIffMerged`, `LifeStep`, `KeepsLifeCycle`, `KeepMove`.
Key theorems: `keepMove_pushPartly`, `closedIffMerged_moved`,
`life_cycle_kept`.
-/
import Gitdot.Review.Run

namespace Gitdot

open Lib Prog

/-- How far a status is along draft, open, merged. -/
def DiffStatus.rank : DiffStatus → ℕ
  | .draft => 0
  | .open => 1
  | .merged => 2

/-- The status of the diff at a position. -/
def Review.statusAt (r : Review) (k : ℤ) : Option DiffStatus := (r.diffs.get? k).map Diff.status

/-- The status of a diff. -/
def RepoState.diffStatus (s : RepoState) (id : DiffId) : Option DiffStatus :=
  (s.reviews.get? id.review).bind fun r => r.statusAt id.position

/-- A review is closed exactly if it has diffs and all of them are merged. -/
def ClosedIffMerged (r : Review) : Prop :=
  r.status = .closed ↔ r.diffs.rows ≠ [] ∧ ∀ d ∈ r.diffs.rows, d.status = .merged

/-- Every diff moves forward, and to merged only from open. -/
structure LifeStep (s s' : RepoState) : Prop where
  forward : ∀ id old, s.diffStatus id = some old →
    ∃ new, s'.diffStatus id = some new ∧ old.rank ≤ new.rank
  fromOpen : ∀ id, s'.diffStatus id = some .merged →
    s.diffStatus id = some .open ∨ s.diffStatus id = some .merged

/-- An update brings merged diffs the patch they have, and closed reviews no
new diff. -/
def UpdateKeepsMerged (g : Git) (s : RepoState) (request : ProcessReviewRequest) : Prop :=
  ∀ i ∈ updateInput g s request, ∀ n ∈ numbered 1 i.2.2.1 i.2.2.2,
    (∀ d ∈ i.2.1.diffs.get? n.position, d.status = .merged →
      ∀ v ∈ d.latest?, g.patchId v.commitHash = g.patchId n.commit.sha) ∧
    (i.2.1.status = .closed → (i.2.1.diffs.get? n.position).isSome)

/-- A merge selects open diffs. -/
def SelectsOpen (s : RepoState) (request : MergeReviewDiffRequest) : Prop :=
  ∀ i ∈ mergeInput s request, ∀ p ∈ i.2.1 :: i.2.2.1, p.1.status = .open

/-- The calls that may fail: all but the one that closes a review. -/
def SparesClosing : Call → RepoState → Prop
  | .updateReview _ (some .closed) _ _, _ => False
  | _, _ => True

/-- The call of a merge that closes its review does not fail from outside. -/
def ClosesThrough (g : Git) (s : RepoState) (plan : List Bool) (request : MergeReviewDiffRequest) :
    Prop :=
  Allowed (handler g 0) SparesClosing (mergeReviewDiff request) plan s

/-- The guard of the runs that keep the life cycle. -/
def KeepsLifeCycle (g : Git) (s : RepoState) : Event → Prop
  | .processReviewUpdate _ request => UpdateKeepsMerged g s request
  | .mergeReviewDiff plan request => SelectsOpen s request ∧ ClosesThrough g s plan request
  | _ => True

section Decide

variable (g : Git) (s : RepoState)

instance (r : Review) : Decidable (ClosedIffMerged r) :=
  inferInstanceAs (Decidable (r.status = .closed ↔
    r.diffs.rows ≠ [] ∧ ∀ d ∈ r.diffs.rows, d.status = .merged))

instance : (c : Call) → (s : RepoState) → Decidable (SparesClosing c s)
  | .updateReview _ (some .closed) _ _, _ => .isFalse id
  | .updateReview _ (some .draft) _ _, _ | .updateReview _ (some .open) _ _, _
  | .updateReview _ none _ _, _ => .isTrue trivial
  | .resolveRefSha .., _ | .revList .., _ | .createRef .., _ | .updateRef .., _
  | .getCommitPatchId .., _ | .cherryPickCommit .., _ | .getRepository, _ | .getReviewByNumber .., _
  | .createReview .., _ | .createDiff .., _ | .updateDiff .., _ | .createRevision .., _
  | .updateRevisionSha .., _ => .isTrue trivial

instance : (e : Event) → Decidable (KeepsLifeCycle g s e)
  | .processReviewUpdate _ request => inferInstanceAs (Decidable (∀ i ∈ updateInput g s request,
    ∀ n ∈ numbered 1 i.2.2.1 i.2.2.2,
      (∀ d ∈ i.2.1.diffs.get? n.position, d.status = .merged →
        ∀ v ∈ d.latest?, g.patchId v.commitHash = g.patchId n.commit.sha) ∧
      (i.2.1.status = .closed → (i.2.1.diffs.get? n.position).isSome)))
  | .mergeReviewDiff plan request => inferInstanceAs (Decidable
    ((∀ i ∈ mergeInput s request, ∀ p ∈ i.2.1 :: i.2.2.1, p.1.status = .open) ∧
      Allowed (handler g 0) SparesClosing (mergeReviewDiff request) plan s))
  | .createReview .. | .publishReview .. | .publishReviewDiff .. | .updateReview ..
  | .updateReviewDiff .. | .push .. => .isTrue trivial

end Decide

section

variable {g : Git} {s s' : RepoState} {f f' : Focus} {r r' : Review}

/-! ### The status at a position -/

theorem statusAt_of_mem {d : Diff} (h : d ∈ r.diffs.rows) : r.statusAt d.position = some d.status := by
  have hget : r.diffs.get? d.position = some d := Table.get?_key h
  rw [Review.statusAt, hget, Option.map_some]

theorem statusAt_eq_some {k : ℤ} {st : DiffStatus} (h : r.statusAt k = some st) :
    ∃ d ∈ r.diffs.rows, d.position = k ∧ d.status = st := by
  obtain ⟨d, hd, rfl⟩ := Option.map_eq_some_iff.mp h
  exact ⟨d, Table.mem_rows_of_get? hd, Table.key_of_get? hd, rfl⟩

/-- A review is closed exactly if some position is merged and no position is
anything else. -/
theorem closedIffMerged_iff :
    ClosedIffMerged r ↔ (r.status = .closed ↔
      (∃ k, r.statusAt k = some .merged) ∧ ∀ k st, r.statusAt k = some st → st = .merged) := by
  have hiff : (r.diffs.rows ≠ [] ∧ ∀ d ∈ r.diffs.rows, d.status = .merged) ↔
      (∃ k, r.statusAt k = some .merged) ∧ ∀ k st, r.statusAt k = some st → st = .merged := by
    constructor
    · rintro ⟨hne, hall⟩
      obtain ⟨d, hd⟩ := List.exists_mem_of_ne_nil _ hne
      refine ⟨⟨d.position, by rw [statusAt_of_mem hd, hall d hd]⟩, fun k st hk => ?_⟩
      obtain ⟨e, he, -, rfl⟩ := statusAt_eq_some hk
      exact hall e he
    · rintro ⟨⟨k, hk⟩, hall⟩
      obtain ⟨d, hd, -⟩ := statusAt_eq_some hk
      exact ⟨List.ne_nil_of_mem hd, fun e he => hall e.position e.status (statusAt_of_mem he)⟩
  rw [ClosedIffMerged, hiff]

theorem diffStatus_put (id : DiffId) :
    (s.put f).diffStatus id =
      if id.review = f.review.id then f.review.statusAt id.position else s.diffStatus id := by
  unfold RepoState.diffStatus
  rw [RepoState.get?_put]
  split_ifs <;> rfl

theorem diffStatus_of_get? (h : s.reviews.get? r.id = some r) (k : ℤ) :
    s.diffStatus ⟨r.id, k⟩ = r.statusAt k := by
  rw [RepoState.diffStatus, h, Option.bind_some]

/-- What a step may make of the status at a position. -/
def StatusMove : Option DiffStatus → Option DiffStatus → Prop
  | none, new => new ≠ some .merged
  | some _, none => False
  | some old, some new => old.rank ≤ new.rank ∧ (new = .merged → old ≠ .draft)

theorem StatusMove.refl_some (st : DiffStatus) : StatusMove (some st) (some st) :=
  ⟨le_rfl, fun h => by rw [h]; exact nofun⟩

theorem lifeStep_refl (s : RepoState) : LifeStep s s :=
  ⟨fun _ old h => ⟨old, h, le_rfl⟩, fun _ h => .inr h⟩

/-- A step on one review. -/
theorem lifeStep_put
    (h : ∀ k, StatusMove (s.diffStatus ⟨f.review.id, k⟩) (f.review.statusAt k)) :
    LifeStep s (s.put f) := by
  constructor
  · rintro ⟨id, k⟩ old hold
    rw [diffStatus_put]
    by_cases hid : id = f.review.id
    · subst hid
      have hk := h k
      rw [hold] at hk
      rw [if_pos rfl]
      cases hnew : f.review.statusAt k with
      | none =>
        rw [hnew] at hk
        exact hk.elim
      | some new =>
        rw [hnew] at hk
        exact ⟨new, rfl, hk.1⟩
    · exact ⟨old, (if_neg hid).trans hold, le_rfl⟩
  · rintro ⟨id, k⟩ hnew
    rw [diffStatus_put] at hnew
    by_cases hid : id = f.review.id
    · subst hid
      rw [if_pos rfl] at hnew
      have hk := h k
      rw [hnew] at hk
      cases hold : s.diffStatus ⟨f.review.id, k⟩ with
      | none =>
        rw [hold] at hk
        exact absurd rfl hk
      | some old =>
        rw [hold] at hk
        cases old with
        | draft => exact absurd rfl (hk.2 rfl)
        | «open» => exact .inl rfl
        | merged => exact .inr rfl
    · rw [if_neg hid] at hnew
      exact .inr hnew

/-! ### Steps that merge nothing -/

/-- What a step that is no merge makes of the status at a position of `r`. -/
inductive KeepMove (r : Review) : Option DiffStatus → Option DiffStatus → Prop where
  | same (st) : KeepMove r st st
  | added : r.status ≠ .closed → KeepMove r none (some .draft)
  | opened {st} : st ≠ .merged → KeepMove r (some st) (some .open)

theorem KeepMove.statusMove {old new : Option DiffStatus} (h : KeepMove r old new) :
    StatusMove old new := by
  cases h with
  | same =>
    cases old with
    | none => exact nofun
    | some st => exact .refl_some st
  | added => exact nofun
  | opened hst =>
    rename_i st
    cases st with
    | draft => exact ⟨Nat.zero_le _, nofun⟩
    | «open» => exact .refl_some _
    | merged => exact absurd rfl hst

/-- Steps that merge nothing close nothing and reopen nothing. -/
theorem ClosedIffMerged.keep (h : ClosedIffMerged r)
    (hstatus : r'.status = .closed ↔ r.status = .closed)
    (hk : ∀ k, KeepMove r (r.statusAt k) (r'.statusAt k)) : ClosedIffMerged r' := by
  rw [closedIffMerged_iff] at h ⊢
  have hmerged : ∀ k, r'.statusAt k = some .merged → r.statusAt k = some .merged := by
    intro k hk'
    have hmove := hk k
    rw [hk'] at hmove
    cases hold : r.statusAt k <;> rw [hold] at hmove <;> cases hmove
    rfl
  rw [hstatus, h]
  constructor
  · rintro ⟨⟨k, hk'⟩, hall⟩
    have hclosed : r.status = .closed := h.mpr ⟨⟨k, hk'⟩, hall⟩
    have hsame : ∀ k, r'.statusAt k = r.statusAt k := by
      intro k
      have hmove := hk k
      generalize hnew : r'.statusAt k = new at hmove ⊢
      generalize hold : r.statusAt k = old at hmove ⊢
      cases hmove with
      | same => rfl
      | added hopen => exact absurd hclosed hopen
      | opened hst => exact absurd (hall k _ hold) hst
    exact ⟨⟨k, (hsame k).trans hk'⟩, fun k st hst => hall k st ((hsame k).symm.trans hst)⟩
  · rintro ⟨⟨k, hk'⟩, hall⟩
    refine ⟨⟨k, hmerged k hk'⟩, fun k st hst => ?_⟩
    have hmove := hk k
    rw [hst] at hmove
    generalize hnew : r'.statusAt k = new at hmove
    cases hmove with
    | same => exact hall k st hnew
    | opened _ => exact absurd (hall k _ hnew) nofun

/-- A step that merges nothing, on a review of the state. -/
theorem life_put_keep (h : ∀ r ∈ s.reviews.rows, ClosedIffMerged r)
    (hr : s.reviews.get? r.id = some r) (hid : f.review.id = r.id)
    (hstatus : f.review.status = .closed ↔ r.status = .closed)
    (hk : ∀ k, KeepMove r (r.statusAt k) (f.review.statusAt k)) :
    (∀ r ∈ (s.put f).reviews.rows, ClosedIffMerged r) ∧ LifeStep s (s.put f) := by
  have hreview := h r (Table.mem_rows_of_get? hr)
  refine ⟨RepoState.forall_put h (hreview.keep hstatus hk), lifeStep_put fun k => ?_⟩
  rw [hid, diffStatus_of_get? hr]
  exact (hk k).statusMove

/-- However far a push gets, it adds drafts to a review that is not closed and
opens diffs that are not merged. -/
theorem keepMove_pushPartly {p : ℤ} {prev : Sha} {commits : List Commit}
    (hg : ∀ n ∈ numbered p prev commits,
      (∀ d ∈ f.diff? n.position, d.status = .merged →
        ∀ v ∈ d.latest?, g.patchId v.commitHash = g.patchId n.commit.sha) ∧
      (f.review.status = .closed → (f.diff? n.position).isSome))
    (h : PushPartly g p prev commits f f') (k : ℤ) :
    KeepMove f.review (f.review.statusAt k) (f'.review.statusAt k) := by
  have hat : ∀ e : Focus, e.review.statusAt k = (e.diff? k).map Diff.status := fun e => rfl
  rw [hat f, hat f']
  rcases h.diff? k with hsame | ⟨n, hn, rfl, d', hd', hpushed⟩
  · rw [hsame]
    exact .same _
  · obtain ⟨hpatch, hclosed⟩ := hg n hn
    rw [hd']
    generalize hold : f.diff? n.position = old at hpushed
    have hopen : old = none → f.review.status ≠ .closed := by
      rintro rfl hst
      have := hclosed hst
      rw [hold] at this
      cases this
    cases hpushed with
    | created => exact .added (hopen rfl)
    | first => exact .added (hopen rfl)
    | unchanged => exact .same _
    | revised => exact .same _
    | reopened hv hp => exact .opened fun hm => hp (hpatch _ hold hm _ hv)

/-- A review that a push makes. -/
theorem life_created {request : ProcessReviewRequest} {draw : Uuid} {commits : List Commit}
    {targetSha : Sha} {f : Focus} (h : ∀ r ∈ s.reviews.rows, ClosedIffMerged r)
    (hnew : s.reviews.get? (s.newReview draw request.pusherId request.targetBranch).id = none)
    (hpart : PushPartly g 1 targetSha commits
      (s.focus (s.newReview draw request.pusherId request.targetBranch)) f)
    (hf : f'.review = f.review) :
    (∀ r ∈ (s.put f').reviews.rows, ClosedIffMerged r) ∧ LifeStep s (s.put f') := by
  have hid : f'.review.id = draw := by rw [hf, hpart.id_eq]; rfl
  have hempty : ∀ k, (s.newReview draw request.pusherId request.targetBranch).statusAt k = none :=
    fun _ => rfl
  have hdraft : (s.newReview draw request.pusherId request.targetBranch).status ≠ .closed := nofun
  have hkeep : ∀ k, KeepMove (s.newReview draw request.pusherId request.targetBranch)
      ((s.newReview draw request.pusherId request.targetBranch).statusAt k)
      (f'.review.statusAt k) := by
    intro k
    rw [hf]
    refine keepMove_pushPartly (f := s.focus _) (fun n _ => ⟨fun d hd => ?_, ?_⟩) hpart k
    · cases hd
    · exact fun hst => absurd hst hdraft
  have hnewReview : ClosedIffMerged (s.newReview draw request.pusherId request.targetBranch) :=
    ⟨nofun, fun hm => absurd rfl hm.1⟩
  have hstatus : f'.review.status = (s.newReview draw request.pusherId request.targetBranch).status := by
    rw [hf, hpart.review]
    rfl
  refine ⟨RepoState.forall_put h (hnewReview.keep (by rw [hstatus]) hkeep), lifeStep_put fun k => ?_⟩
  have hnone : s.diffStatus ⟨f'.review.id, k⟩ = none := by
    rw [hid, RepoState.diffStatus]
    exact (congrArg (Option.bind · _) hnew).trans rfl
  rw [hnone]
  exact hempty k ▸ (hkeep k).statusMove

theorem life_pushStep {request : ProcessReviewRequest} {draw : Option Uuid}
    (h : ∀ r ∈ s.reviews.rows, ClosedIffMerged r)
    (hg : draw = none → UpdateKeepsMerged g s request) (hstep : PushStep g s request draw s') :
    (∀ r ∈ s'.reviews.rows, ClosedIffMerged r) ∧ LifeStep s s' := by
  have hbase : ∀ {review targetSha commits f f'}, PushBase g s request draw review targetSha commits →
      PushPartly g 1 targetSha commits (s.focus review) f → f'.review = f.review →
      (∀ r ∈ (s.put f').reviews.rows, ClosedIffMerged r) ∧ LifeStep s (s.put f') := by
    intro review targetSha commits f f' hb hpart hf
    cases hb with
    | update hi =>
      have hid : f'.review.id = review.id := by rw [hf, hpart.id_eq]; rfl
      have hstatus : f'.review.status = review.status := by rw [hf, hpart.review]; rfl
      refine life_put_keep h hi.get? hid (by rw [hstatus]) fun k => ?_
      rw [hf]
      exact keepMove_pushPartly (f := s.focus review)
        (hg rfl _ (updateInput_eq_some_iff.mpr hi)) hpart k
    | create hp hnew => exact life_created h hnew hpart hf
  cases hstep with
  | nothing => exact ⟨h, lifeStep_refl s⟩
  | partly hb hpart => exact hbase hb hpart rfl
  | through hb hall => exact hbase hb (Focus.pushAll_partly hall) rfl

theorem life_editStep (h : ∀ r ∈ s.reviews.rows, ClosedIffMerged r) (hstep : EditStep s s') :
    (∀ r ∈ s'.reviews.rows, ClosedIffMerged r) ∧ LifeStep s s' := by
  have hset : ∀ {review d} (d' : Diff), s.reviews.get? review.id = some review →
      d ∈ review.diffs.rows → d'.position = d.position →
      KeepMove review (some d.status) (some d'.status) →
      (∀ r ∈ (s.put ((s.focus review).setDiff d')).reviews.rows, ClosedIffMerged r) ∧
        LifeStep s (s.put ((s.focus review).setDiff d')) := by
    intro review d d' hr hd hpos hmove
    refine life_put_keep h hr rfl Iff.rfl fun k => ?_
    have hat : ((s.focus review).setDiff d').review.statusAt k =
        (((s.focus review).setDiff d').diff? k).map Diff.status := rfl
    rw [hat, Focus.diff?_setDiff]
    by_cases hk : k = d'.position
    · rw [if_pos hk, hk, hpos, statusAt_of_mem hd]
      exact hmove
    · rw [if_neg hk]
      exact .same _
  cases hstep with
  | nothing => exact ⟨h, lifeStep_refl s⟩
  | published hr hdraft =>
    refine life_put_keep h hr rfl ?_ fun k => .same _
    rw [hdraft]
    exact iff_of_false nofun nofun
  | texts _ _ hr => exact life_put_keep h hr rfl Iff.rfl fun k => .same _
  | publishedDiff hr _ hd hdiff => exact hset _ hr hd rfl (.opened (hdiff ▸ nofun))
  | message _ hr hd => exact hset _ hr hd rfl (.same _)

/-! ### Merges -/

theorem statusAt_rebasePartly {parent : Sha} {sel : List (Diff × Revision)} (hsel : Selects f sel)
    (h : RebasePartly g parent sel f f') (k : ℤ) : f'.review.statusAt k = f.review.statusAt k := by
  have hat : ∀ e : Focus, e.review.statusAt k = (e.diff? k).map Diff.status := fun e => rfl
  rw [hat f, hat f']
  rcases h.diff? k with hsame | ⟨q, hq, rfl, _, _, -, hd⟩
  · rw [hsame]
  · rw [hd, hsel.diff? q hq]
    rfl

theorem statusAt_landing {first : Diff × Revision} {rest : List (Diff × Revision)}
    {targetSha commit : Sha} (hsel : Selects (s.focus r) (first :: rest))
    (h : Landing g (s.focus r) targetSha first rest f commit) (k : ℤ) :
    f.review.statusAt k = r.statusAt k := by
  rcases h with ⟨-, rfl, -⟩ | ⟨-, hall⟩
  · rfl
  · exact statusAt_rebasePartly hsel (Focus.rebaseAll_partly hall) k

theorem statusAt_marked (commit : Sha) (done : List (Diff × Revision))
    (status : Option ReviewStatus) (k : ℤ) :
    (((f.moveTarget commit).markAll done).setStatus status).review.statusAt k =
      if k ∈ done.map (fun p => p.1.position) then
        (f.review.statusAt k).map fun _ => .merged else f.review.statusAt k := by
  have hat : ∀ e : Focus, e.review.statusAt k = (e.diff? k).map Diff.status := fun e => rfl
  have hmove : (f.moveTarget commit).diff? k = f.diff? k := rfl
  rw [hat f, hat, Focus.setStatus_diff?, Focus.diff?_markAll, hmove]
  split_ifs
  · rw [Option.map_map, Option.map_map]
    rfl
  · rfl

section Moved

variable {request : MergeReviewDiffRequest} {first : Diff × Revision}
  {rest done todo : List (Diff × Revision)} {targetSha : Sha} {status : Option ReviewStatus}

/-- A diff that is selected and not yet marked is not merged. -/
theorem not_all_merged_of_todo (hi : MergeInput s request r first rest targetSha)
    (hsel : first :: rest = done ++ todo)
    (hat : ∀ k, r'.statusAt k = if k ∈ done.map (fun p => p.1.position) then
      (r.statusAt k).map fun _ => .merged else r.statusAt k) (hne : todo ≠ []) :
    ¬ ∀ k st, r'.statusAt k = some st → st = .merged := by
  intro hall
  obtain ⟨p, todo, rfl⟩ := List.exists_cons_of_ne_nil hne
  have hmem : p ∈ first :: rest := hsel ▸ List.mem_append_right _ (.head _)
  have hp : p.1.position ∉ done.map (fun p => p.1.position) := by
    have hnodup := hi.selects.nodup
    rw [hsel, List.map_append, List.nodup_append] at hnodup
    exact fun hin => hnodup.2.2 _ hin _ (.head _) rfl
  have hst := hat p.1.position
  rw [if_neg hp, statusAt_of_mem (hi.mem_selected hmem).1] at hst
  exact (hi.mem_selected hmem).2.2 (hall _ _ hst)

/-- Once all are marked, what is not merged is what the merge leaves open. -/
theorem all_merged_iff_closing (hi : MergeInput s request r first rest targetSha)
    (hat : ∀ k, r'.statusAt k = if k ∈ (first :: rest).map (fun p => p.1.position) then
      (r.statusAt k).map fun _ => .merged else r.statusAt k) :
    (∀ k st, r'.statusAt k = some st → st = .merged) ↔
      closing r request.position = some .closed := by
  unfold closing
  rw [ite_eq_left_iff]
  simp only [reduceCtorEq, imp_false, not_not, List.all_eq_true, decide_eq_true_eq]
  constructor
  · intro hall d hd
    by_contra hnot
    rw [not_or] at hnot
    have hst := hat d.position
    rw [if_neg fun hin => hnot.2 ((hi.mem_positions hd).mp hin).1, statusAt_of_mem hd] at hst
    exact hnot.1 (hall _ _ hst)
  · intro hall k st hst
    rw [hat] at hst
    by_cases hin : k ∈ (first :: rest).map fun p => p.1.position
    · rw [if_pos hin] at hst
      obtain ⟨_, -, rfl⟩ := Option.map_eq_some_iff.mp hst
      rfl
    · rw [if_neg hin] at hst
      obtain ⟨d, hd, rfl, rfl⟩ := statusAt_eq_some hst
      by_contra hm
      exact hin ((hi.mem_positions hd).mpr ⟨(hall d hd).resolve_left hm, hm⟩)

/-- All the diffs of a review are merged once a merge has marked those it
selects exactly if `all_merged` says so, and not before. -/
theorem closedIffMerged_moved (hi : MergeInput s request r first rest targetSha)
    (hsel : first :: rest = done ++ todo)
    (hstatus : todo = [] ∧ status = closing r request.position ∨
      status = none ∧ (todo ≠ [] ∨ closing r request.position ≠ some .closed))
    (hr' : r'.status = status.getD r.status)
    (hat : ∀ k, r'.statusAt k = if k ∈ done.map (fun p => p.1.position) then
      (r.statusAt k).map fun _ => .merged else r.statusAt k) : ClosedIffMerged r' := by
  have hdone : todo = [] → ((∀ k st, r'.statusAt k = some st → st = .merged) ↔
      closing r request.position = some .closed) := by
    rintro rfl
    rw [List.append_nil] at hsel
    subst hsel
    exact all_merged_iff_closing hi hat
  have hopen : r.status ≠ .closed := by
    rw [hi.isOpen]
    exact nofun
  rw [closedIffMerged_iff]
  rcases hstatus with ⟨hnil, rfl⟩ | ⟨rfl, hnot⟩
  · have hsome : ∃ k, r'.statusAt k = some .merged := by
      subst hnil
      rw [List.append_nil] at hsel
      subst hsel
      refine ⟨first.1.position, ?_⟩
      rw [hat, if_pos (.head _), statusAt_of_mem (hi.mem_selected (.head _)).1, Option.map_some]
    have hclosed : r'.status = .closed ↔ closing r request.position = some .closed := by
      rw [hr']
      unfold closing
      split_ifs
      · exact iff_of_true rfl rfl
      · exact iff_of_false hopen nofun
    rw [hclosed, hdone hnil]
    exact ⟨fun h => ⟨hsome, h⟩, And.right⟩
  · refine iff_of_false (hr' ▸ hopen) fun hall => ?_
    by_cases hnil : todo = []
    · exact (hnot.resolve_left (fun hne => hne hnil)) ((hdone hnil).mp hall.2)
    · exact not_all_merged_of_todo hi hsel hat hnil hall.2

end Moved

theorem life_mergeStep {request : MergeReviewDiffRequest}
    (h : ∀ r ∈ s.reviews.rows, ClosedIffMerged r) (hg : SelectsOpen s request)
    (hstep : MergeStep g s request SparesClosing s') :
    (∀ r ∈ s'.reviews.rows, ClosedIffMerged r) ∧ LifeStep s s' := by
  cases hstep with
  | nothing => exact ⟨h, lifeStep_refl s⟩
  | rebasing hi _ hpart =>
    have hstatus := hpart.review
    refine life_put_keep h hi.get? hpart.id_eq (by rw [hpart.review]; rfl) fun k => ?_
    rw [statusAt_rebasePartly hi.selects hpart k]
    exact .same _
  | moved status hi hland hsel hdone hstatus hlast =>
    rename_i review first rest targetSha f commit done todo
    have hat : ∀ k, (((f.moveTarget commit).markAll done).setStatus status).review.statusAt k =
        if k ∈ done.map (fun p => p.1.position) then
          (review.statusAt k).map fun _ => .merged else review.statusAt k := by
      intro k
      rw [statusAt_marked, statusAt_landing hi.selects hland]
    have hid : (((f.moveTarget commit).markAll done).setStatus status).review.id = review.id := by
      have hmark := Focus.markAll_id done (f.moveTarget commit)
      exact hmark.trans (by rw [Focus.moveTarget, Focus.setRef_review, hland.review])
    have hmark : ((f.moveTarget commit).markAll done).review.status = review.status := by
      rw [Focus.markAll_review, Focus.moveTarget, Focus.setRef_review, hland.review]
    refine ⟨RepoState.forall_put h ?_, lifeStep_put fun k => ?_⟩
    · refine closedIffMerged_moved hi hsel ?_ (congrArg status.getD hmark) hat
      rcases hstatus with rfl | hall
      · refine .inr ⟨rfl, ?_⟩
        rcases hlast with hnone | hne | hF
        · refine .inr fun hclosed => ?_
          rw [← hnone] at hclosed
          cases hclosed
        · exact .inl hne
        · refine .inr fun hclosed => ?_
          rw [hclosed] at hF
          exact hF
      · exact .inl hall
    · rw [hid, diffStatus_of_get? hi.get?, hat k]
      by_cases hk : k ∈ done.map fun p => p.1.position
      · rw [if_pos hk]
        obtain ⟨p, hp, rfl⟩ := List.mem_map.mp hk
        have hmem : p ∈ first :: rest := hsel ▸ List.mem_append_left _ hp
        rw [statusAt_of_mem (hi.mem_selected hmem).1,
          hg _ (mergeInput_eq_some_iff.mpr hi) p hmem]
        exact ⟨Nat.le_succ 1, fun _ h => by cases h⟩
      · rw [if_neg hk]
        exact (KeepMove.same (r := review) _).statusMove

/-! ### Runs -/

/-- One event that meets the guard keeps the life cycle. -/
theorem life_step {e : Event} (h : ∀ r ∈ s.reviews.rows, ClosedIffMerged r)
    (hg : KeepsLifeCycle g s e) :
    (∀ r ∈ (step g e s).reviews.rows, ClosedIffMerged r) ∧ LifeStep s (step g e s) := by
  cases e with
  | createReview draw plan request =>
    exact life_pushStep h (fun hnone => absurd hnone (Option.some_ne_none draw))
      (step_createReview draw plan request).pushStep
  | processReviewUpdate plan request =>
    exact life_pushStep h (fun _ => hg) (step_processReviewUpdate plan request).pushStep
  | mergeReviewDiff plan request =>
    have hout : MergeOutcome g s request SparesClosing (call g plan (mergeReviewDiff request) s).1
        (call g plan (mergeReviewDiff request) s).2 := wp_run wp_mergeReviewDiff hg.2
    exact life_mergeStep h hg.1 hout.mergeStep
  | publishReview plan request => exact life_editStep h (of_wp wp_publishReview)
  | publishReviewDiff plan request => exact life_editStep h (of_wp wp_publishReviewDiff)
  | updateReview plan request => exact life_editStep h (of_wp wp_updateReview)
  | updateReviewDiff plan request => exact life_editStep h (of_wp wp_updateReviewDiff)
  | push branch sha => exact ⟨h, fun _ old hold => ⟨old, hold, le_rfl⟩, fun _ => .inr⟩

/-- **Life cycle.** In every state of a run that meets the guard a review is
closed exactly if it has diffs and all of them are merged, and each event that
meets the guard there moves every diff forward, to merged only from open. -/
theorem life_cycle_kept (g : Git) (s : RepoState)
    (h : Reach Fresh (step g) (KeepsLifeCycle g) s) :
    (∀ r ∈ s.reviews.rows, ClosedIffMerged r) ∧
      ∀ e, KeepsLifeCycle g s e → LifeStep s (step g e s) := by
  have hclosed : ∀ r ∈ s.reviews.rows, ClosedIffMerged r := by
    refine h.invariant (I := fun s => ∀ r ∈ s.reviews.rows, ClosedIffMerged r) ?_ ?_
    · rintro _ ⟨_, _, rfl⟩ r hr
      cases hr
    · intro s e hs hg
      exact (life_step hs hg).1
  exact ⟨hclosed, fun e hg => (life_step hclosed hg).2⟩

end

/-! ### An update after a partial merge, and one before a merge

Commits 2 and 3 are pushed on the root 1, then 4 on 3. -/

/-- The commits of the two runs. -/
def lifeGit : Git := .stack 3

/-- The open review of 2 and 3, with `main` at 1. -/
def openState : RepoState :=
  play (step lifeGit)
    [.createReview 5 [] ⟨"owner", "repo", "main", none, 3, 9⟩,
      .publishReviewDiff [] ⟨"owner", "repo", 1, 1⟩, .publishReviewDiff [] ⟨"owner", "repo", 1, 2⟩,
      .publishReview [] ⟨"owner", "repo", 1⟩]
    (fresh 7 fun branch => if branch = "main" then some 1 else none)

theorem life_cycle_kept_openState :
    (∀ r ∈ openState.reviews.rows, ClosedIffMerged r) ∧
      LifeStep openState (step lifeGit (.mergeReviewDiff [] ⟨"owner", "repo", 1, 2⟩) openState) := by
  have hrun : Reach Fresh (step lifeGit) (KeepsLifeCycle lifeGit) openState :=
    reach_play (.start ⟨_, _, rfl⟩) (by decide +kernel)
  obtain ⟨hclosed, hstep⟩ := life_cycle_kept lifeGit openState hrun
  exact ⟨hclosed, hstep _ (by decide +kernel)⟩

/-- An update to 4 adds a third diff to the open review, a draft, and a merge of
all three marks it merged. -/
theorem not_life_cycle_kept :
    ¬ ∀ (g : Git) (s : RepoState), Reach Fresh (step g) (fun _ _ => True) s →
      (∀ r ∈ s.reviews.rows, ClosedIffMerged r) ∧ ∀ e, LifeStep s (step g e s) := by
  intro h
  have hrun : Reach Fresh (step lifeGit) (fun _ _ => True)
      (step lifeGit (.processReviewUpdate [] ⟨"owner", "repo", "main", some 1, 4, 9⟩) openState) :=
    .next _ (reach_play (.start ⟨_, _, rfl⟩) (by decide)) trivial
  have hstep := (h lifeGit _ hrun).2 (.mergeReviewDiff [] ⟨"owner", "repo", 1, 3⟩)
  rcases hstep.fromOpen ⟨5, 3⟩ (by decide +kernel) with hopen | hmerged
  · exact absurd hopen (by decide +kernel)
  · exact absurd hmerged (by decide +kernel)

end Gitdot
