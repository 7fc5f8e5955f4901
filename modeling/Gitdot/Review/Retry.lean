/-
# Retrying an update

An update is a run of calls without a transaction around it. When one of them
fails from outside, the positions before it are done with, and a retry leaves
them as they are (`pushAt_of_settled`); what it makes of the position the
failure was in depends on the call.

A diff left without a revision fails the retry. A revision left behind without
the rest of its work is taken for the commit's own, so the retry sees no
modification and does not open the diff: that matters unless it is open
already. From any other failure a retry ends where the failure-free run does
(`retry_converges_iff`).

Key definitions: `Recovers`, `Converges`, `RetryEnds`.
Key theorems: `retry_pushCalls`, `retry_pushCall`, `retry_converges_iff`.
-/
import Gitdot.Review.Run

namespace Gitdot

open Lib Prog

/-- The failure of the call is made good by a retry of the push that met the
review as `f`. -/
def Recovers (g : Git) (f : Focus) : Call → Prop
  | .createRevision id _ _ _ => f.diff? id.position ≠ none
  | .createRef (.revision _ position _) _ => ∀ d ∈ f.diff? position, d.status = .open
  | .updateRef (.current _ position) sha => ∀ d ∈ f.diff? position, ∀ v ∈ d.latest?,
      d.status = .open ∨ g.patchId v.commitHash = g.patchId sha
  | .updateDiff id _ _ => ∀ d ∈ f.diff? id.position, d.status = .open
  | _ => True

/-- The position of the diff that `Recovers` looks at. -/
def Call.position? : Call → Option ℤ
  | .createRevision id _ _ _ => some id.position
  | .createRef (.revision _ position _) _ => some position
  | .updateRef (.current _ position) _ => some position
  | .updateDiff id _ _ => some id.position
  | _ => none

/-- The update whose call number `k` fails, made again, returns and ends where
it ends if no call fails. -/
def Converges (g : Git) (s : RepoState) (request : ProcessReviewRequest) (k : ℕ) : Prop :=
  (call g [] (processReviewUpdate request)
      (call g (failAt k) (processReviewUpdate request) s).2).1.isOk = true ∧
    (call g [] (processReviewUpdate request)
      (call g (failAt k) (processReviewUpdate request) s).2).2 =
      (call g [] (processReviewUpdate request) s).2

section

variable {g : Git} {s : RepoState} {f f' e : Focus} {p : ℤ} {prev : Sha} {c : Commit}
  {commits : List Commit} {made : Call}

theorem recovers_congr (h : ∀ q ∈ made.position?, f'.diff? q = f.diff? q) :
    Recovers g f' made ↔ Recovers g f made := by
  cases made with
  | createRevision id =>
    have hq := h id.position rfl
    simp only [Recovers, hq]
  | createRef name =>
    cases name with
    | revision _ position _ =>
      have hq := h position rfl
      simp only [Recovers, hq]
    | _ => exact Iff.rfl
  | updateRef name =>
    cases name with
    | current _ position =>
      have hq := h position rfl
      simp only [Recovers, hq]
    | _ => exact Iff.rfl
  | updateDiff id =>
    have hq := h id.position rfl
    simp only [Recovers, hq]
  | _ => exact Iff.rfl

theorem recovers_of_idle (h : made.Idle) : Recovers g f made := by
  cases made <;> first | exact trivial | exact h.elim

/-- The calls of a position look at no other. -/
theorem position?_pushCalls (h : (made, e) ∈ f.pushCalls g p prev c) : ∀ q ∈ made.position?, q = p := by
  intro q hq
  unfold Focus.pushCalls at h
  split at h
  · simp only [Focus.newCalls, List.mem_cons, Prod.mk.injEq, List.not_mem_nil, or_false] at h
    rcases h with ⟨rfl, -⟩ | ⟨rfl, -⟩ | ⟨rfl, -⟩ | ⟨rfl, -⟩
    · cases hq
    · exact (Option.some.inj hq).symm
    · exact (Option.some.inj hq).symm
    · cases hq
  · split at h
    · cases h
    split_ifs at h
    · simp only [Focus.unchangedCalls, List.mem_cons, Prod.mk.injEq, List.not_mem_nil, or_false] at h
      rcases h with ⟨rfl, -⟩ | ⟨rfl, -⟩ | ⟨rfl, -⟩ | ⟨rfl, -⟩ | ⟨rfl, -⟩
      · cases hq
      · cases hq
      · cases hq
      · cases hq
      · exact (Option.some.inj hq).symm
    · simp only [Focus.modifiedCalls, List.mem_cons, Prod.mk.injEq, List.not_mem_nil, or_false] at h
      rcases h with ⟨rfl, -⟩ | ⟨rfl, -⟩ | ⟨rfl, -⟩ | ⟨rfl, -⟩ | ⟨rfl, -⟩ | ⟨rfl, -⟩
      · cases hq
      · cases hq
      · exact (Option.some.inj hq).symm
      · exact (Option.some.inj hq).symm
      · exact (Option.some.inj hq).symm
      · exact (Option.some.inj hq).symm

theorem le_position?_pushCall (h : PushCall g p prev commits f made e) :
    ∀ q ∈ made.position?, p ≤ q := by
  induction h with
  | here h => exact fun q hq => (position?_pushCalls h q hq).ge
  | later _ _ ih =>
    intro q hq
    have := ih q hq
    omega

/-! ### The position of the failure -/

/-- Pushing again to a diff whose row has the revision already. -/
theorem pushAt_withRevision {d : Diff} {n : ℤ} (hpos : d.position = p)
    (hn : ∀ v ∈ d.revisions.rows, v.number ≤ n) :
    (f.withRevision prev c d n).pushAt g p prev c = some (f.withRevisionRefs p prev c d n) :=
  pushAt_of_latest (Focus.diff?_withRevision hpos n) (Table.last?_upsert hn)

/-- Pushing again to a diff whose row and whose revision's ref are there. -/
theorem pushAt_withRevision_setRef {d : Diff} {n : ℤ} (hpos : d.position = p)
    (hn : ∀ v ∈ d.revisions.rows, v.number ≤ n) :
    ((f.withRevision prev c d n).setRef (f.revisionRef p n) c.sha).pushAt g p prev c =
      some (f.withRevisionRefs p prev c d n) := by
  have hd : ((f.withRevision prev c d n).setRef (f.revisionRef p n) c.sha).diff? p =
      some (d.putRevision ⟨n, c.sha, prev⟩) := Focus.diff?_withRevision hpos n
  have hset : ((f.withRevision prev c d n).setRef (f.revisionRef p n) c.sha).setRef
      (f.revisionRef p n) c.sha =
      (f.withRevision prev c d n).setRef (f.revisionRef p n) c.sha :=
    Focus.setRef_self (Focus.setRef_refs_self _ _)
  have hpush := pushAt_of_latest (g := g) hd (Table.last?_upsert hn)
  rw [hpush]
  show some ((Focus.setRef (Focus.setRef _ (f.revisionRef p n) c.sha) (f.revisionRef p n) c.sha).setRef
    (f.currentRef p) c.sha) = _
  rw [hset]
  rfl

/-- Pushing the commit to `e` again, where `made` has failed, ends in `f'`, or
leaves another diff and `made` is not made good. -/
def RetryEnds (g : Git) (f : Focus) (p : ℤ) (prev : Sha) (c : Commit) (made : Call) (e f' : Focus) :
    Prop :=
  (Recovers g f made ∧ e.pushAt g p prev c = some f') ∨
    (¬ Recovers g f made ∧ ∀ e', e.pushAt g p prev c = some e' → e'.diff? p ≠ f'.diff? p)

/-- A diff that has no revision fails the retry. -/
theorem not_pushAt_newDiff {e' : Focus} :
    (f.setDiff (newDiff p c)).pushAt g p prev c ≠ some e' := by
  intro hpush
  have hrow : (f.setDiff (newDiff p c)).diff? p = some (newDiff p c) :=
    Focus.diff?_setDiff_self (newDiff p c)
  rcases Focus.pushAt_cases hpush with ⟨hnone, -⟩ | ⟨d, v, hd, hv, -⟩ | ⟨d, v, hd, hv, -⟩
  · cases hrow.symm.trans hnone
  · obtain rfl := Option.some.inj (hrow.symm.trans hd)
    cases hv
  · obtain rfl := Option.some.inj (hrow.symm.trans hd)
    cases hv

theorem retry_newCalls (h : (made, e) ∈ f.newCalls p prev c) (hd : f.diff? p = none)
    (hpush : f.pushAt g p prev c = some (f.afterNew p prev c)) :
    RetryEnds g f p prev c made e (f.afterNew p prev c) := by
  have hle : ∀ v ∈ (newDiff p c).revisions.rows, v.number ≤ 1 := fun v hv => nomatch hv
  simp only [Focus.newCalls, List.mem_cons, Prod.mk.injEq, List.not_mem_nil, or_false] at h
  rcases h with ⟨rfl, rfl⟩ | ⟨rfl, rfl⟩ | ⟨rfl, rfl⟩ | ⟨rfl, rfl⟩
  · exact .inl ⟨trivial, hpush⟩
  · exact .inr ⟨fun hr => hr hd, fun e' he' => absurd he' not_pushAt_newDiff⟩
  · refine .inl ⟨fun d hd' => ?_, pushAt_withRevision rfl hle⟩
    cases hd.symm.trans hd'
  · exact .inl ⟨trivial, pushAt_withRevision_setRef rfl hle⟩

theorem retry_unchangedCalls {d : Diff} {v : Revision}
    (h : (made, e) ∈ f.unchangedCalls p prev c d v) (hd : f.diff? p = some d)
    (hv : d.latest? = some v) (hp : g.patchId v.commitHash = g.patchId c.sha)
    (hpush : f.pushAt g p prev c = some (f.afterUnchanged p prev c d v.number)) :
    RetryEnds g f p prev c made e (f.afterUnchanged p prev c d v.number) := by
  have hpos := Focus.position_of_diff? hd
  have hle := (Table.last?_eq_some_iff.mp hv).2
  simp only [Focus.unchangedCalls, List.mem_cons, Prod.mk.injEq, List.not_mem_nil, or_false] at h
  rcases h with ⟨rfl, rfl⟩ | ⟨rfl, rfl⟩ | ⟨rfl, rfl⟩ | ⟨rfl, rfl⟩ | ⟨rfl, rfl⟩
  · exact .inl ⟨trivial, hpush⟩
  · exact .inl ⟨trivial, hpush⟩
  · exact .inl ⟨trivial, hpush⟩
  · exact .inl ⟨trivial, pushAt_withRevision hpos hle⟩
  · refine .inl ⟨fun d' hd' w hw => .inr ?_, pushAt_withRevision_setRef hpos hle⟩
    obtain rfl := Option.some.inj (hd.symm.trans hd')
    obtain rfl := Option.some.inj (hv.symm.trans hw)
    exact hp

/-- A retry that takes the revision that was left for unchanged does not open the
diff. -/
theorem retryEnds_withRevisionRefs {d : Diff} {v : Revision} (hd : f.diff? p = some d)
    (hiff : Recovers g f made ↔ d.status = .open)
    (he : e.pushAt g p prev c = some (f.withRevisionRefs p prev c d (v.number + 1))) :
    RetryEnds g f p prev c made e (f.afterModified p prev c d (v.number + 1)) := by
  have hpos := Focus.position_of_diff? hd
  have hwith : (f.withRevisionRefs p prev c d (v.number + 1)).diff? p =
      some (d.putRevision ⟨v.number + 1, c.sha, prev⟩) := Focus.diff?_withRevisionRefs hpos _
  by_cases hopen : d.status = .open
  · have hrow : { d.putRevision ⟨v.number + 1, c.sha, prev⟩ with status := .open } =
        d.putRevision ⟨v.number + 1, c.sha, prev⟩ := by
      rw [← hopen]
      rfl
    have hafter : f.afterModified p prev c d (v.number + 1) =
        f.withRevisionRefs p prev c d (v.number + 1) := by
      unfold Focus.afterModified
      rw [hrow]
      exact Focus.setDiff_self (by rw [Diff.putRevision_position, hpos, hwith])
    exact .inl ⟨hiff.mpr hopen, hafter ▸ he⟩
  · refine .inr ⟨fun hr => hopen (hiff.mp hr), fun e' he' hsame => hopen ?_⟩
    obtain rfl := Option.some.inj (he.symm.trans he')
    have hafter : (f.afterModified p prev c d (v.number + 1)).diff? p = some
        { d.putRevision ⟨v.number + 1, c.sha, prev⟩ with status := .open } :=
      hpos ▸ Focus.diff?_setDiff_self _
    rw [hwith, hafter] at hsame
    exact congrArg Diff.status (Option.some.inj hsame)

theorem retry_modifiedCalls {d : Diff} {v : Revision}
    (h : (made, e) ∈ f.modifiedCalls p prev c d v) (hd : f.diff? p = some d)
    (hv : d.latest? = some v) (hp : g.patchId v.commitHash ≠ g.patchId c.sha)
    (hpush : f.pushAt g p prev c = some (f.afterModified p prev c d (v.number + 1))) :
    RetryEnds g f p prev c made e (f.afterModified p prev c d (v.number + 1)) := by
  have hpos := Focus.position_of_diff? hd
  have hle : ∀ w ∈ d.revisions.rows, w.number ≤ v.number + 1 := fun w hw =>
    ((Table.last?_eq_some_iff.mp hv).2 w hw).trans (Int.le_add_one le_rfl)
  have hset : Settled (f.withRevisionRefs p prev c d (v.number + 1)) ⟨p, prev, c⟩ :=
    settled_withRevisionRefs hpos hle
  have honly : ∀ P : Diff → Prop, (∀ d' ∈ f.diff? p, P d') ↔ P d := by
    intro P
    rw [hd]
    exact ⟨fun h => h d rfl, fun h d' hd' => Option.some.inj hd' ▸ h⟩
  simp only [Focus.modifiedCalls, List.mem_cons, Prod.mk.injEq, List.not_mem_nil, or_false] at h
  rcases h with ⟨rfl, rfl⟩ | ⟨rfl, rfl⟩ | ⟨rfl, rfl⟩ | ⟨rfl, rfl⟩ | ⟨rfl, rfl⟩ | ⟨rfl, rfl⟩
  · exact .inl ⟨trivial, hpush⟩
  · exact .inl ⟨trivial, hpush⟩
  · refine .inl ⟨fun hnone => ?_, hpush⟩
    cases hd.symm.trans hnone
  · exact retryEnds_withRevisionRefs hd (honly _) (pushAt_withRevision hpos hle)
  · refine retryEnds_withRevisionRefs hd ((honly _).trans ?_)
      (pushAt_withRevision_setRef hpos hle)
    rw [hv]
    exact ⟨fun h => (h v rfl).resolve_right hp, fun h w _ => .inl h⟩
  · exact retryEnds_withRevisionRefs hd (honly _) (pushAt_of_settled hset)

/-- **One position.** Where a call at a position has failed, pushing the commit
there again ends as the failure-free push does, or leaves another diff. -/
theorem retry_pushCalls (h : (made, e) ∈ f.pushCalls g p prev c)
    (hpush : f.pushAt g p prev c = some f') : RetryEnds g f p prev c made e f' := by
  rcases Focus.pushAt_cases hpush with
    ⟨hd, -, -, rfl⟩ | ⟨d, v, hd, hv, hp, rfl⟩ | ⟨d, v, hd, hv, hp, -, rfl⟩
  · have hcalls : f.pushCalls g p prev c = f.newCalls p prev c := by simp only [Focus.pushCalls, hd]
    exact retry_newCalls (hcalls ▸ h) hd hpush
  · have hcalls : f.pushCalls g p prev c = f.unchangedCalls p prev c d v := by
      simp only [Focus.pushCalls, hd, hv, if_pos hp]
    exact retry_unchangedCalls (hcalls ▸ h) hd hv hp hpush
  · have hcalls : f.pushCalls g p prev c = f.modifiedCalls p prev c d v := by
      simp only [Focus.pushCalls, hd, hv, if_neg hp]
    exact retry_modifiedCalls (hcalls ▸ h) hd hv hp hpush

/-! ### The push -/

theorem PushPartly.diff?_of_lt (h : PushPartly g p prev commits f f') {k : ℤ} (hk : k < p) :
    f'.diff? k = f.diff? k := by
  rcases h.diff? k with hsame | ⟨n, hn, rfl, -⟩
  · exact hsame
  · have := le_of_mem_numbered hn
    omega

/-- Pushing the commits again to positions that are settled changes nothing. -/
theorem pushAll_of_settled : ∀ {commits : List Commit} {p : ℤ} {prev : Sha},
    (∀ n ∈ numbered p prev commits, Settled f n) → f.pushAll g p prev commits = some f
  | [], _, _, _ => rfl
  | _ :: _, _, _, h => Focus.pushAll_cons.mpr
    ⟨f, pushAt_of_settled (h _ (.head _)), pushAll_of_settled fun n hn => h n (.tail _ hn)⟩

/-- **The push.** Where a call of a push has failed, the push made again ends as
the failure-free one does, or leaves another review. -/
theorem retry_pushCall (h : PushCall g p prev commits f made e)
    (hall : f.pushAll g p prev commits = some f') :
    (Recovers g f made ∧ e.pushAll g p prev commits = some f') ∨
      (¬ Recovers g f made ∧ ∀ e', e.pushAll g p prev commits = some e' →
        e'.review ≠ f'.review) := by
  induction h with
  | here h =>
    obtain ⟨f₁, h₁, hrest⟩ := Focus.pushAll_cons.mp hall
    rcases retry_pushCalls h h₁ with ⟨hr, he⟩ | ⟨hr, hdiff⟩
    · exact .inl ⟨hr, Focus.pushAll_cons.mpr ⟨f₁, he, hrest⟩⟩
    · refine .inr ⟨hr, fun e' he' hsame => ?_⟩
      obtain ⟨e₁, he₁, hrest'⟩ := Focus.pushAll_cons.mp he'
      have hf := (Focus.pushAll_partly hrest).diff?_of_lt (Int.lt_succ _)
      have he := (Focus.pushAll_partly hrest').diff?_of_lt (Int.lt_succ _)
      refine hdiff e₁ he₁ ?_
      rw [← hf, ← he, Focus.diff?, Focus.diff?, hsame]
  | later h₁ h ih =>
    rename_i p prev c commits f f₁ made e
    obtain ⟨f₁', h₁', hrest⟩ := Focus.pushAll_cons.mp hall
    obtain rfl := Option.some.inj (h₁.symm.trans h₁')
    -- the position before the failure is done with
    have hdone : e.pushAt g p prev c = some e :=
      pushAt_of_settled ((settled_of_pushAt h₁).pushPartly h.partly (Int.lt_succ p))
    have hiff : Recovers g f₁ made ↔ Recovers g f made := by
      refine recovers_congr fun q hq => (Focus.sameBut_pushAt h₁).diff? q ?_
      have := le_position?_pushCall h q hq
      omega
    rcases ih hrest with ⟨hr, he⟩ | ⟨hr, hdiff⟩
    · exact .inl ⟨hiff.mp hr, Focus.pushAll_cons.mpr ⟨e, hdone, he⟩⟩
    · refine .inr ⟨fun h => hr (hiff.mpr h), fun e' he' => hdiff e' ?_⟩
      obtain ⟨e₁, he₁, hrest'⟩ := Focus.pushAll_cons.mp he'
      obtain rfl := Option.some.inj (hdone.symm.trans he₁)
      exact hrest'

/-! ### The update -/

/-- An update is a strict program: every call stands under a `?`. -/
theorem strict_processReviewUpdate (request : ProcessReviewRequest) :
    Strict (processReviewUpdate request) := by
  have hask : ∀ c, Strict (ask c) := fun c => strict_perform _ c
  have hget : ∀ owner repo number, Strict (getReviewById owner repo number) :=
    fun _ _ _ => strict_bind (fun _ => strict_liftExcept _) (hask _)
  have hpushAt : ∀ number id position prev c d,
      Strict (pushDiffAt request number id position prev c d) := by
    intro number id position prev c d
    cases d with
    | none =>
      exact strict_bind (fun _ => strict_bind (fun _ => strict_bind (fun _ => hask _) (hask _))
        (hask _)) (hask _)
    | some d =>
      refine strict_bind (fun v => strict_bind (fun a => strict_bind (fun b => ?_) (hask _))
        (hask _)) (strict_liftExcept _)
      split_ifs
      · exact strict_bind (fun _ => strict_bind (fun _ => hask _) (hask _)) (hask _)
      · exact strict_bind (fun _ => strict_bind (fun _ => strict_bind (fun _ => hask _) (hask _))
          (hask _)) (hask _)
  have hpush : ∀ number id diffs (commits : List Commit) position prev,
      Strict (pushDiffs request number id diffs position prev commits) := by
    intro number id diffs commits
    induction commits with
    | nil => exact fun _ _ => trivial
    | cons c commits ih => exact fun _ _ => strict_bind (fun _ => ih _ _) (hpushAt _ _ _ _ _ _)
  refine strict_bind (fun number => strict_bind (fun review => strict_bind (fun tip =>
    strict_bind (fun commits => ?_) (hask _)) (hask _)) (hget _ _ _)) (strict_liftExcept _)
  split_ifs
  · trivial
  · exact strict_bind (fun _ => strict_bind (fun _ => strict_bind (fun _ => hget _ _ _) (hask _))
      (hask _)) (hpush _ _ _ _ _ _)

variable {request : ProcessReviewRequest} {number : ℤ} {review : Review} {targetSha : Sha}

/-- What an update finds where an earlier one was stopped: the review as that
has left it, and the same push. -/
theorem UpdateInput.put (hi : UpdateInput g s request number review targetSha commits)
    (hreview : f.review = { review with diffs := f.review.diffs })
    (hheads : ∀ branch, f.refs (getTargetRef branch) = s.refs (getTargetRef branch)) :
    UpdateInput g (s.put f) request number f.review targetSha commits where
  number_eq := hi.number_eq
  found := by
    refine RepoState.getReviewByNumber_put hi.found (by rw [hreview]) ?_
    rw [hreview]
    exact (RepoState.mem_of_getReviewByNumber hi.found).2
  pushes :=
    ⟨by rw [RepoState.put_refs, hheads, hi.pushes.target], hi.pushes.commits_eq, hi.pushes.ne_nil⟩

/-- A failure-free update does its push and then moves the head ref. -/
theorem update_of_input (hi : UpdateInput g s request number review targetSha commits) :
    (∀ f, (s.focus review).pushAll g 1 targetSha commits = some f →
      call g [] (processReviewUpdate request) s =
        (.ok f.review, s.put (f.setRef (getHeadRef review.id.short) request.newSha))) ∧
    ((call g [] (processReviewUpdate request) s).1.isOk = true →
      ∃ f, (s.focus review).pushAll g 1 targetSha commits = some f) := by
  have hout : UpdateOutcome g s request (fun _ _ => False)
      (call g [] (processReviewUpdate request) s).1 (call g [] (processReviewUpdate request) s).2 :=
    of_wp_nil wp_processReviewUpdate
  generalize call g [] (processReviewUpdate request) s = out at hout
  obtain ⟨r, s'⟩ := out
  cases hout with
  | refused e h =>
    rcases h with ⟨_, hF, -⟩ | hnone
    · exact hF.elim
    · exact absurd ⟨_, _, _, _, hi⟩ hnone
  | stopped _ _ hF => exact hF.elim
  | blocked e hi' hnone =>
    obtain ⟨-, rfl, rfl, rfl⟩ := hi.unique hi'
    refine ⟨fun f hall => ?_, fun hok => nomatch hok⟩
    cases hnone.symm.trans hall
  | head _ _ _ hF => exact hF.elim
  | late _ _ _ hF => exact hF.elim fun _ h => h.1.elim
  | done hi' hall =>
    obtain ⟨-, rfl, rfl, rfl⟩ := hi.unique hi'
    refine ⟨fun f hall' => ?_, fun _ => ⟨_, hall⟩⟩
    obtain rfl := Option.some.inj (hall.symm.trans hall')
    rfl

/-- A retry from where an update was stopped, once its push gets through. -/
theorem retry_of_pushAll (hi : UpdateInput g s request number review targetSha commits)
    (hreview : f.review = { review with diffs := f.review.diffs })
    (hheads : ∀ branch, f.refs (getTargetRef branch) = s.refs (getTargetRef branch))
    (hall : f.pushAll g 1 targetSha commits = some f') :
    call g [] (processReviewUpdate request) (s.put f) =
      (.ok f'.review, s.put (f'.setRef (getHeadRef review.id.short) request.newSha)) := by
  have hid : f.review.id = review.id := by rw [hreview]
  have hid' : f'.review.id = f.review.id := (Focus.pushAll_partly hall).id_eq
  rw [(update_of_input (hi.put hreview hheads)).1 f' (by rwa [RepoState.focus_put]), hid]
  exact congrArg _ (RepoState.put_put hid')

theorem Settled.setHeadRef {n : Numbered} (h : Settled f n) (id : ℕ) (sha : Sha) :
    Settled (f.setRef (getHeadRef id) sha) n := by
  obtain ⟨d, number, hd, hlatest, hrev, hcur⟩ := h
  have hsame : ∀ name, name ≠ getHeadRef id → (f.setRef (getHeadRef id) sha).refs name = f.refs name :=
    fun _ hne => Focus.setRef_refs_of_ne sha hne
  refine ⟨d, number, hd, hlatest, ?_, ?_⟩
  · exact (hsame (f.revisionRef _ _) nofun).trans hrev
  · exact (hsame (f.currentRef _) nofun).trans hcur

theorem exists_updateInput (hok : (call g [] (processReviewUpdate request) s).1.isOk = true) :
    ∃ number review targetSha commits,
      UpdateInput g s request number review targetSha commits := by
  obtain ⟨r, hr⟩ := exists_ok hok
  have hout := step_processReviewUpdate (g := g) (s := s) [] request
  rw [hr] at hout
  generalize (call g [] (processReviewUpdate request) s).2 = s' at hout
  cases hout with
  | done hi => exact ⟨_, _, _, _, hi⟩

/-- **Retry.** For an update that would return if no call failed, and any one of
its calls: made again after that call has failed, the update returns and ends
as if nothing had failed exactly if `Recovers` holds of the call. -/
theorem retry_converges_iff {k : ℕ} {t : RepoState}
    (hok : (call g [] (processReviewUpdate request) s).1.isOk = true)
    (hfail : callAt (handler g 0) (processReviewUpdate request) k s = some (made, t)) :
    Converges g s request k ↔ ∀ i ∈ updateInput g s request, Recovers g (s.focus i.2.1) made := by
  have hout : UpdateOutcome g s request (fun c t' => c = made ∧ t' = t)
      (call g (failAt k) (processReviewUpdate request) s).1
      (call g (failAt k) (processReviewUpdate request) s).2 :=
    wp_run wp_processReviewUpdate (allowed_failAt hfail)
  obtain ⟨e, he⟩ := run_failAt (strict_processReviewUpdate request) hfail
  have hstop : call g (failAt k) (processReviewUpdate request) s = (.error e, t) := he
  unfold Converges
  rw [hstop] at hout ⊢
  obtain ⟨number, review, targetSha, commits, hi⟩ := exists_updateInput hok
  obtain ⟨fEnd, hall⟩ := (update_of_input hi).2 hok
  have hend := (update_of_input hi).1 fEnd hall
  have hpart := Focus.pushAll_partly hall
  have hrecovers : (∀ i ∈ updateInput g s request, Recovers g (s.focus i.2.1) made) ↔
      Recovers g (s.focus review) made := by
    rw [updateInput_eq_some_iff.mpr hi]
    exact ⟨fun h => h _ rfl, fun h i hmem => Option.some.inj hmem ▸ h⟩
  rw [hrecovers, hend]
  cases hout with
  | refused _ h =>
    rcases h with ⟨_, ⟨rfl, -⟩, hidle⟩ | hnone
    · exact iff_of_true ⟨by rw [hend]; rfl, by rw [hend]⟩ (recovers_of_idle hidle)
    · exact absurd ⟨_, _, _, _, hi⟩ hnone
  | stopped hi' hcall hF =>
    obtain ⟨-, rfl, rfl, rfl⟩ := hi.unique hi'
    obtain ⟨rfl, -⟩ := hF
    have hreview := hcall.partly.review
    have hheads := hcall.partly.heads
    rcases retry_pushCall hcall hall with ⟨hr, hagain⟩ | ⟨hr, hother⟩
    · rw [retry_of_pushAll hi hreview hheads hagain]
      exact iff_of_true ⟨rfl, rfl⟩ hr
    · refine iff_of_false ?_ hr
      rintro ⟨hok', hsame⟩
      obtain ⟨e', he'⟩ := (update_of_input (hi.put hreview hheads)).2 hok'
      rw [RepoState.focus_put] at he'
      rw [retry_of_pushAll hi hreview hheads he'] at hsame
      have hid : e'.review.id = fEnd.review.id :=
        (Focus.pushAll_partly he').id_eq.trans (hcall.partly.id_eq.trans hpart.id_eq.symm)
      have hfocus : e'.setRef (getHeadRef review.id.short) request.newSha =
          fEnd.setRef (getHeadRef review.id.short) request.newSha := RepoState.put_injective hsame hid
      have hreview' : (e'.setRef (getHeadRef review.id.short) request.newSha).review =
          (fEnd.setRef (getHeadRef review.id.short) request.newSha).review := by rw [hfocus]
      exact hother e' he' hreview'
  | blocked _ hi' hnone =>
    obtain ⟨-, rfl, rfl, rfl⟩ := hi.unique hi'
    cases hall.symm.trans hnone
  | head _ hi' hall' hF =>
    obtain ⟨-, rfl, rfl, rfl⟩ := hi.unique hi'
    obtain rfl := Option.some.inj (hall.symm.trans hall')
    obtain ⟨rfl, -⟩ := hF
    have hagain := pushAll_of_settled (g := g) (settled_of_pushAll hall)
    rw [retry_of_pushAll hi hpart.review hpart.heads hagain]
    exact iff_of_true ⟨rfl, rfl⟩ trivial
  | late _ hi' hall' hF =>
    obtain ⟨-, rfl, rfl, rfl⟩ := hi.unique hi'
    obtain rfl := Option.some.inj (hall.symm.trans hall')
    obtain ⟨_, ⟨rfl, -⟩, hidle⟩ := hF
    have hagain : (fEnd.setRef (getHeadRef review.id.short) request.newSha).pushAll g 1 targetSha
        commits = some (fEnd.setRef (getHeadRef review.id.short) request.newSha) :=
      pushAll_of_settled fun n hn => (settled_of_pushAll hall n hn).setHeadRef _ _
    rw [retry_of_pushAll (f := fEnd.setRef _ _) hi hpart.review
      (fun branch => (Focus.setHeadRef_targetRef _ _ branch).trans (hpart.heads branch)) hagain,
      Focus.setRef_self (Focus.setRef_refs_self _ _)]
    exact iff_of_true ⟨rfl, rfl⟩ (recovers_of_idle hidle)

end

/-! ### A new diff without its revision

Commits 2 and 3 are pushed on the root 1. -/

/-- The commits of the example. -/
def retryGit : Git := .stack 2

/-- The review of 2. -/
def retryState : RepoState :=
  play (step retryGit) [.createReview 5 [] ⟨"owner", "repo", "main", none, 2, 9⟩]
    (fresh 7 fun branch => if branch = "main" then some 1 else none)

theorem retryState_ok : (call retryGit [] (processReviewUpdate
    ⟨"owner", "repo", "main", some 1, 3, 9⟩) retryState).1.isOk = true := by decide +kernel

/-- The call number 10 of the update to 3 creates the ref of the new diff's
revision. -/
theorem retry_converges_iff_retryState :
    Converges retryGit retryState ⟨"owner", "repo", "main", some 1, 3, 9⟩ 10 ↔
      ∀ i ∈ updateInput retryGit retryState ⟨"owner", "repo", "main", some 1, 3, 9⟩,
        Recovers retryGit (retryState.focus i.2.1) (.createRef (getRevisionRef 0 2 1) 3) := by
  obtain ⟨⟨made, t⟩, hfail⟩ := Option.isSome_iff_exists.mp (show (callAt (handler retryGit 0)
    (processReviewUpdate ⟨"owner", "repo", "main", some 1, 3, 9⟩) 10 retryState).isSome = true by
      decide +kernel)
  have hmade : (callAt (handler retryGit 0)
      (processReviewUpdate ⟨"owner", "repo", "main", some 1, 3, 9⟩) 10 retryState).map Prod.fst =
      some (.createRef (getRevisionRef 0 2 1) 3) := by decide +kernel
  rw [hfail] at hmade
  obtain rfl := Option.some.inj hmade
  exact retry_converges_iff retryState_ok hfail

/-- Its call number 9 creates the revision of the new diff: a retry finds the
diff without one. -/
theorem not_retry_converges :
    ¬ ∀ (g : Git) (s : RepoState) (request : ProcessReviewRequest) (k : ℕ),
      (call g [] (processReviewUpdate request) s).1.isOk = true →
      (call g (failAt k) (processReviewUpdate request) s).1.isOk = false →
      Converges g s request k := by
  intro h
  have hretry := (h retryGit retryState ⟨"owner", "repo", "main", some 1, 3, 9⟩ 9 retryState_ok
    (by decide +kernel)).1
  exact absurd hretry (by decide +kernel)

end Gitdot
