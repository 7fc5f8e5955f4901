/-
# Runs of the review service

The events a repository goes through: calls of the review methods, each with
a plan of which of its calls fail from outside, and direct pushes to its
branches. `step` is the state after an event; the runs are those of
`Lib.Reach` from a repository that has no reviews. `PushStep`, `MergeStep`
and `EditStep` say all that an event can make of the state, and `step_induct`
is the case analysis over them.

Key definitions: `EditStep`, `PushStep`, `MergeStep`, `Event`, `step`,
`Fresh`.
Key theorems: `step_createReview`, `step_processReviewUpdate`,
`step_mergeReviewDiff`, `step_induct`.
-/
import Gitdot.Lib.Reach
import Gitdot.Review.Effect

namespace Gitdot

open Lib Prog

/-! ### Publishing and editing -/

section Small

variable {g : Git} {draw : Uuid} {F : Call → RepoState → Prop} {s : RepoState}

/-- A call that rewrites the columns of a review of the state. -/
theorem exec_updateReview {review : Review} (hr : s.reviews.get? review.id = some review)
    (status : Option ReviewStatus) (title description : Option String) :
    exec g draw (.updateReview review.id status title description) s =
      (.ok (), s.put { s.focus review with review := { review with
        status := status.getD review.status
        title := title.getD review.title
        description := description.getD review.description } }) := by
  conv_lhs => rw [← RepoState.put_focus hr]
  exact exec_updateReview_put status title description

/-- A call that rewrites the columns of a diff of the state. -/
theorem exec_updateDiff {review : Review} {position : ℤ} {d : Diff}
    (hr : s.reviews.get? review.id = some review) (hd : review.diffs.get? position = some d)
    (status : Option DiffStatus) (message : Option String) :
    exec g draw (.updateDiff ⟨review.id, d.position⟩ status message) s =
      (.ok (), s.put ((s.focus review).setDiff
        { d with status := status.getD d.status, message := message.getD d.message })) := by
  have hpos : d.position = position := Table.key_of_get? hd
  conv_lhs => rw [← RepoState.put_focus hr, hpos]
  exact exec_updateDiff_put hd

/-- A method that ends with reading its review back. -/
theorem wp_getReviewById_const {P : RepoState → Prop} {owner repo : String} {number : ℤ} (h : P s) :
    wp (handler g draw) F (fun _ s' => P s') (getReviewById owner repo number) s :=
  wp_getReviewById.mpr ⟨fun _ => h, h⟩

/-- The focus with the texts of its review overwritten. -/
def Focus.setTexts (f : Focus) (title description : Option String) : Focus :=
  { f with review := { f.review with
    title := title.getD f.review.title
    description := description.getD f.review.description } }

/-- What the methods that publish or edit make of the state: one row of a
review they find is rewritten, or nothing is. -/
inductive EditStep (s : RepoState) : RepoState → Prop where
  | nothing : EditStep s s
  | published {review} (hr : s.reviews.get? review.id = some review)
    (hdraft : review.status = .draft) (hdiffs : ∀ d ∈ review.diffs.rows, d.status ≠ .draft) :
    EditStep s (s.put ((s.focus review).setStatus (some .open)))
  | publishedDiff {review d} (hr : s.reviews.get? review.id = some review)
    (hdraft : review.status = .draft) (hd : d ∈ review.diffs.rows) (hdiff : d.status = .draft) :
    EditStep s (s.put ((s.focus review).setDiff { d with status := .open }))
  | texts {review} (title description : Option String)
    (hr : s.reviews.get? review.id = some review) :
    EditStep s (s.put ((s.focus review).setTexts title description))
  | message {review d} (message : String) (hr : s.reviews.get? review.id = some review)
    (hd : d ∈ review.diffs.rows) :
    EditStep s (s.put ((s.focus review).setDiff { d with message := message }))

/-- A method that looks up its review first does nothing where there is none. -/
theorem wp_editStep {α : Type} {owner repo : String} {number : ℤ} {k : Review → ReviewProg α}
    (h : ∀ review, s.reviews.get? review.id = some review →
      wp (handler g draw) F (fun _ s' => EditStep s s') (k review) s) :
    wp (handler g draw) F (fun _ s' => EditStep s s') (getReviewById owner repo number >>= k) s := by
  rw [wp_bind, wp_getReviewById]
  refine ⟨fun _ => .nothing, ?_⟩
  cases hrev : s.getReviewByNumber number with
  | none => exact .nothing
  | some review =>
    rw [orNotFound, andThen_ok]
    exact h review (RepoState.mem_of_getReviewByNumber hrev).1

/-- `publish_review` opens a draft review none of whose diffs is a draft. -/
theorem wp_publishReview {request : PublishReviewRequest} :
    wp (handler g draw) F (fun _ s' => EditStep s s') (publishReview request) s := by
  unfold publishReview
  refine wp_editStep fun review hr => ?_
  rw [wp_ite]
  split_ifs with hstatus
  · exact .nothing
  rw [wp_ite]
  split_ifs with hpending
  · exact .nothing
  have hnone : ∀ d ∈ review.diffs.rows, d.status ≠ .draft := fun d hd hdraft =>
    hpending (List.length_pos_of_mem (List.mem_filter.mpr ⟨hd, by simpa using hdraft⟩))
  refine (wp_ask_bind (exec_updateReview hr _ none none)).mpr
    ⟨fun _ => .nothing, wp_getReviewById_const ?_⟩
  exact .published hr (not_not.mp hstatus) hnone

/-- `publish_review_diff` opens a draft diff of a draft review. -/
theorem wp_publishReviewDiff {request : PublishReviewDiffRequest} :
    wp (handler g draw) F (fun _ s' => EditStep s s') (publishReviewDiff request) s := by
  unfold publishReviewDiff
  refine wp_editStep fun review hr => ?_
  rw [wp_ite]
  split_ifs with hstatus
  · exact .nothing
  rw [wp_bind, wp_liftExcept]
  cases hd : review.diffs.get? request.position with
  | none => exact .nothing
  | some d =>
    rw [orNotFound, andThen_ok, wp_ite]
    split_ifs with hdraft
    · exact .nothing
    refine (wp_ask_bind (exec_updateDiff hr hd _ none)).mpr ⟨fun _ => .nothing, ?_⟩
    have hdone := EditStep.publishedDiff hr (not_not.mp hstatus) (Table.mem_rows_of_get? hd)
      (not_not.mp hdraft)
    exact (wp_ask_bind (exec_updateReview_none _)).mpr
      ⟨fun _ => hdone, wp_getReviewById_const hdone⟩

/-- `update_review` overwrites the texts of a review. -/
theorem wp_updateReview {request : UpdateReviewRequest} :
    wp (handler g draw) F (fun _ s' => EditStep s s') (updateReview request) s := by
  unfold updateReview
  refine wp_editStep fun review hr => ?_
  refine (wp_ask_bind (exec_updateReview hr none _ _)).mpr
    ⟨fun _ => .nothing, wp_getReviewById_const ?_⟩
  exact .texts request.title request.description hr

/-- `update_review_diff` overwrites the message of a diff. -/
theorem wp_updateReviewDiff {request : UpdateReviewDiffRequest} :
    wp (handler g draw) F (fun _ s' => EditStep s s') (updateReviewDiff request) s := by
  unfold updateReviewDiff
  refine wp_editStep fun review hr => ?_
  rw [wp_bind, wp_liftExcept]
  cases hd : review.diffs.get? request.position with
  | none => exact .nothing
  | some d =>
    rw [orNotFound, andThen_ok]
    refine (wp_ask_bind (exec_updateDiff hr hd none _)).mpr ⟨fun _ => .nothing, ?_⟩
    have hdone := EditStep.message (request.message.getD d.message) hr
      (Table.mem_rows_of_get? hd)
    exact (wp_ask_bind (exec_updateReview_none _)).mpr
      ⟨fun _ => hdone, wp_getReviewById_const hdone⟩

end Small

/-! ### Events -/

/-- What happens to a repository. A review method comes with the plan of its
calls that fail from outside, `create_review` also with the id the database
draws. -/
inductive Event where
  | createReview (draw : Uuid) (plan : List Bool) (request : ProcessReviewRequest)
  | processReviewUpdate (plan : List Bool) (request : ProcessReviewRequest)
  | publishReview (plan : List Bool) (request : PublishReviewRequest)
  | publishReviewDiff (plan : List Bool) (request : PublishReviewDiffRequest)
  | updateReview (plan : List Bool) (request : UpdateReviewRequest)
  | updateReviewDiff (plan : List Bool) (request : UpdateReviewDiffRequest)
  | mergeReviewDiff (plan : List Bool) (request : MergeReviewDiffRequest)
  | push (branch : String) (sha : Sha)
  deriving DecidableEq

/-- A run of a review method. No method but `create_review` draws an id. -/
def call (g : Git) (plan : List Bool) (p : ReviewProg Review) (s : RepoState) :
    Except ReviewError Review × RepoState :=
  run (handler g 0) p plan s

/-- The state after an event. -/
def step (g : Git) : Event → RepoState → RepoState
  | .createReview draw plan request, s => (run (handler g draw) (createReview request) plan s).2
  | .processReviewUpdate plan request, s => (call g plan (processReviewUpdate request) s).2
  | .publishReview plan request, s => (call g plan (publishReview request) s).2
  | .publishReviewDiff plan request, s => (call g plan (publishReviewDiff request) s).2
  | .updateReview plan request, s => (call g plan (updateReview request) s).2
  | .updateReviewDiff plan request, s => (call g plan (updateReviewDiff request) s).2
  | .mergeReviewDiff plan request, s => (call g plan (mergeReviewDiff request) s).2
  | .push branch sha, s => s.updateRef (getTargetRef branch) sha

/-- A repository with these branches that no review was made in. -/
def fresh (repository : Uuid) (heads : String → Option Sha) : RepoState where
  repository := some repository
  reviews := .empty
  refs
    | .heads branch => heads branch
    | _ => none

/-- The states runs start from. -/
def Fresh (s : RepoState) : Prop := ∃ repository heads, s = fresh repository heads

theorem Fresh.get? {s : RepoState} (h : Fresh s) (id : Uuid) : s.reviews.get? id = none := by
  obtain ⟨_, _, rfl⟩ := h
  rfl

/-! ### What an event can do -/

/-- What a push starts from: the review an update finds, or the row that
`create_review` has inserted under the id it drew. -/
inductive PushBase (g : Git) (s : RepoState) (request : ProcessReviewRequest) :
    Option Uuid → Review → Sha → List Commit → Prop where
  | update {number review targetSha commits} :
    UpdateInput g s request number review targetSha commits →
      PushBase g s request none review targetSha commits
  | create {draw targetSha commits} :
    Pushes g s request targetSha commits → s.reviews.get? draw = none →
      PushBase g s request (some draw)
        (s.newReview draw request.pusherId request.targetBranch) targetSha commits

/-- What a push, through or not, makes of the state: an update, or with an id
drawn a `create_review`. -/
inductive PushStep (g : Git) (s : RepoState) (request : ProcessReviewRequest)
    (draw : Option Uuid) : RepoState → Prop where
  | nothing : PushStep g s request draw s
  | partly {review targetSha commits f} : PushBase g s request draw review targetSha commits →
    PushPartly g 1 targetSha commits (s.focus review) f → PushStep g s request draw (s.put f)
  | through {review targetSha commits f} : PushBase g s request draw review targetSha commits →
    (s.focus review).pushAll g 1 targetSha commits = some f →
    PushStep g s request draw (s.put (f.setRef (getHeadRef review.id.short) request.newSha))

/-- What a merge, through or not, makes of the state. -/
inductive MergeStep (g : Git) (s : RepoState) (request : MergeReviewDiffRequest)
    (F : Call → RepoState → Prop) : RepoState → Prop where
  | nothing : MergeStep g s request F s
  | rebasing {review first rest targetSha f}
    (hi : MergeInput s request review first rest targetSha)
    (hne : targetSha ≠ first.2.parentHash)
    (h : RebasePartly g targetSha (first :: rest) (s.focus review) f)
    (hwhy : Faulty F ∨ (s.focus review).rebaseAll g targetSha (first :: rest) = none) :
    MergeStep g s request F (s.put f)
  | moved {review first rest targetSha f commit done todo} (status : Option ReviewStatus)
    (hi : MergeInput s request review first rest targetSha)
    (h : Landing g (s.focus review) targetSha first rest f commit)
    (hsel : first :: rest = done ++ todo) (hdone : todo = [] ∨ Faulty F)
    (hstatus : status = none ∨ todo = [] ∧ status = closing review request.position)
    (hlast : status = closing review request.position ∨ todo ≠ [] ∨
      F (.updateReview review.id (closing review request.position) none none)
        (s.put ((f.moveTarget commit).markAll done))) :
    MergeStep g s request F (s.put (((f.moveTarget commit).markAll done).setStatus status))

section Step

variable {g : Git} {s s' : RepoState} {draw : Uuid} {F : Call → RepoState → Prop}

theorem CreateOutcome.pushStep {request : ProcessReviewRequest} {r : Except ReviewError Review}
    (h : CreateOutcome g s request draw r s') : PushStep g s request (some draw) s' := by
  cases h with
  | refused => exact .nothing
  | stopped _ hp hnew h => exact .partly (.create hp hnew) h
  | done hp hnew h => exact .through (.create hp hnew) h

theorem UpdateOutcome.pushStep {request : ProcessReviewRequest} {r : Except ReviewError Review}
    (h : UpdateOutcome g s request F r s') : PushStep g s request none s' := by
  cases h with
  | refused => exact .nothing
  | stopped hi h => exact .partly (.update hi) h.partly
  | blocked _ hi _ h => exact .partly (.update hi) h
  | head _ hi h => exact .partly (.update hi) (Focus.pushAll_partly h)
  | late _ hi h => exact .through (.update hi) h
  | done hi h => exact .through (.update hi) h

theorem MergeOutcome.mergeStep {request : MergeReviewDiffRequest} {r : Except ReviewError Review}
    (h : MergeOutcome g s request F r s') : MergeStep g s request F s' := by
  cases h with
  | refused => exact .nothing
  | rebasing _ hi hne h hwhy => exact .rebasing hi hne h hwhy
  | landed _ hi h _ hF =>
    rcases h with ⟨-, rfl, -⟩ | ⟨hne, h⟩
    · rw [RepoState.put_focus hi.get?]
      exact .nothing
    · exact .rebasing hi hne (Focus.rebaseAll_partly h) (.inl hF)
  | marking _ hi h _ hF hsel =>
    exact .moved none hi h hsel (.inr hF) (.inl rfl) (.inr (.inl (by simp)))
  | marked _ hi h _ hF =>
    exact .moved none hi h (List.append_nil _).symm (.inl rfl) (.inl rfl) (.inr (.inr hF))
  | closed _ hi h =>
    exact .moved _ hi h (List.append_nil _).symm (.inl rfl) (.inr ⟨rfl, rfl⟩) (.inl rfl)
  | done _ hi h =>
    exact .moved _ hi h (List.append_nil _).symm (.inl rfl) (.inr ⟨rfl, rfl⟩) (.inl rfl)

end Step

section Step

variable {g : Git} {s : RepoState} {draw : Uuid} {plan : List Bool}

/-- The state after any plan satisfies what `wp` promises of any failures. -/
theorem of_wp {p : ReviewProg Review} {Q : Except ReviewError Review → RepoState → Prop}
    (h : wp (handler g draw) (fun _ _ => True) Q p s) :
    Q (run (handler g draw) p plan s).1 (run (handler g draw) p plan s).2 :=
  wp_run h (allowed_anyFault p plan s)

/-- What a run with no plan does: no call fails from outside. -/
theorem of_wp_nil {p : ReviewProg Review} {Q : Except ReviewError Review → RepoState → Prop}
    (h : wp (handler g 0) (fun _ _ => False) Q p s) : Q (call g [] p s).1 (call g [] p s).2 :=
  wp_noFault.mp h

theorem step_createReview (draw : Uuid) (plan : List Bool) (request : ProcessReviewRequest) :
    CreateOutcome g s request draw (run (handler g draw) (createReview request) plan s).1
      (run (handler g draw) (createReview request) plan s).2 :=
  of_wp wp_createReview

theorem step_processReviewUpdate (plan : List Bool) (request : ProcessReviewRequest) :
    UpdateOutcome g s request (fun _ _ => True) (call g plan (processReviewUpdate request) s).1
      (call g plan (processReviewUpdate request) s).2 :=
  of_wp wp_processReviewUpdate

theorem step_mergeReviewDiff (plan : List Bool) (request : MergeReviewDiffRequest) :
    MergeOutcome g s request (fun _ _ => True) (call g plan (mergeReviewDiff request) s).1
      (call g plan (mergeReviewDiff request) s).2 :=
  of_wp wp_mergeReviewDiff

theorem exists_ok {ε α : Type} {x : Except ε α} (h : x.isOk = true) : ∃ a, x = .ok a := by
  cases x with
  | ok a => exact ⟨a, rfl⟩
  | error e => cases h

/-- Every event is a push for review, a merge, an edit or a direct push. -/
theorem step_induct {P : RepoState → Prop} {e : Event}
    (hcreate : ∀ draw plan request, e = .createReview draw plan request →
      ∀ s', PushStep g s request (some draw) s' → P s')
    (hupdate : ∀ plan request, e = .processReviewUpdate plan request →
      ∀ s', PushStep g s request none s' → P s')
    (hmerge : ∀ plan request, e = .mergeReviewDiff plan request →
      ∀ s', MergeStep g s request (fun _ _ => True) s' → P s')
    (hedit : ∀ s', EditStep s s' → P s')
    (hpush : ∀ branch sha, e = .push branch sha → P (s.updateRef (getTargetRef branch) sha)) :
    P (step g e s) := by
  cases e with
  | createReview draw plan request =>
    exact hcreate _ _ _ rfl _ (step_createReview draw plan request).pushStep
  | processReviewUpdate plan request =>
    exact hupdate _ _ rfl _ (step_processReviewUpdate plan request).pushStep
  | mergeReviewDiff plan request =>
    exact hmerge _ _ rfl _ (step_mergeReviewDiff plan request).mergeStep
  | publishReview plan request => exact hedit _ (of_wp wp_publishReview)
  | publishReviewDiff plan request => exact hedit _ (of_wp wp_publishReviewDiff)
  | updateReview plan request => exact hedit _ (of_wp wp_updateReview)
  | updateReviewDiff plan request => exact hedit _ (of_wp wp_updateReviewDiff)
  | push branch sha => exact hpush _ _ rfl

end Step
end Gitdot
