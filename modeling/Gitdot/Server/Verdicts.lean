/-
# Verdicts and the revisions they are for

A reviewer loads a review and later submits a verdict on one of its diffs.
The submission names the diff by its position and not the revision that was
on the page: `review_review_diff` reads the review again and records the
verdict for what is then the latest revision. Between the two the author may
have pushed a change, and with it a new revision.

So in every run a verdict is for the latest revision that its submission
read, and that is the revision shown on the page unless a call has created
another one of the diff since (`verdicts_for_latest`).

Key definitions: `shown`, `AfterPage`, `ReadBy`, `Superseded`,
`VerdictsLatest`, `VerdictsShown`.
Key theorems: `obeys_reviewProgram`, `latest_or_superseded`, `verdict_of_record`,
`verdicts_for_latest`.
-/
import Gitdot.Server.Revisions

namespace Gitdot

open Lib Prog

/-! ### What is shown -/

/-- The latest revision, on the page, of the diff that is reviewed. -/
def shown (P : ReviewPool) (page : ℕ) (request : ReviewReviewDiffRequest) : Option RevisionId :=
  match P.result page with
  | some (.getReview owner repo number, .ok review) =>
    if owner = request.owner ∧ repo = request.repo ∧ number = request.number then
      latestRevision review request.position
    else none
  | _ => none

/-- Reviewers submit once they have their page. -/
def AfterPage (P : ReviewPool) : ReviewMove → Prop
  | .start (.reviewReviewDiff page request) => (shown P page request).isSome = true
  | _ => True

instance (P : ReviewPool) : (m : ReviewMove) → Decidable (AfterPage P m)
  | .start (.reviewReviewDiff page request) =>
    inferInstanceAs (Decidable ((shown P page request).isSome = true))
  | .start (.getReview ..) | .start (.processReviewUpdate _) | .step _ _ => .isTrue trivial

/-- What the checks of a submission ask of the review before a verdict is
recorded. -/
def MayJudge (request : ReviewReviewDiffRequest) (review : Review) : Prop :=
  request.action ≠ .comment ∧ request.reviewerId ≠ review.authorId ∧
    ((review.diffs.get? request.position).all fun d => d.status ≠ .merged) = true

instance (request : ReviewReviewDiffRequest) (review : Review) :
    Decidable (MayJudge request review) := inferInstanceAs (Decidable (_ ∧ _))

/-- The verdicts since `w` are each of a submission whose page showed the
revision. -/
def VerdictsShown (w : World) (P : ReviewPool) : Prop :=
  ∃ rows, P.sys.store.verdicts = rows ++ w.verdicts ∧ ∀ row ∈ rows,
    ∃ (n page : ℕ) (request : ReviewReviewDiffRequest),
      (P.threads[n]?).map Thread.op = some (.reviewReviewDiff page request) ∧
      row.reviewerId = request.reviewerId ∧ row.diffId = row.revisionId.diff ∧
      shown P page request = some row.revisionId

/-- The submission of this number read the review in the store `before`. -/
def ReadBy (P : ReviewPool) (n : ℕ) (before : World) : Prop :=
  ∃ m older, m :: older <:+ P.sys.log ∧ m.caller.number = n ∧ seen n older = [] ∧ m.before = before

/-- A revision of the diff was created after the page was read and before the
submission read the review. -/
def Superseded (P : ReviewPool) (n page : ℕ) (diff : DiffId) : Prop :=
  ∃ m older, m :: older <:+ P.sys.log ∧ seen page older ≠ [] ∧ seen n older = [] ∧
    m.call.Revises diff

/-- The verdicts since `w` are each of a submission, for the latest revision in
the store the submission read; and that is the revision its page showed unless
another was created in between. -/
def VerdictsLatest (w : World) (P : ReviewPool) : Prop :=
  ∃ rows, P.sys.store.verdicts = rows ++ w.verdicts ∧ ∀ row ∈ rows,
    ∃ (n page : ℕ) (request : ReviewReviewDiffRequest) (before : World) (r : RevisionId),
      (P.threads[n]?).map Thread.op = some (.reviewReviewDiff page request) ∧
      row.reviewerId = request.reviewerId ∧ row.diffId = row.revisionId.diff ∧
      ReadBy P n before ∧ before.latestFor request = some row.revisionId ∧
      shown P page request = some r ∧ (row.revisionId = r ∨ Superseded P n page row.diffId)

/-! ### What a submission does -/

/-- The verdict of a submission that has read the review. -/
structure Judges (request : ReviewReviewDiffRequest) (review : Review) (diff : DiffId)
    (revision : RevisionId) (reviewer : Uuid) : Prop where
  may : MayJudge request review
  latest : latestRevision review request.position = some revision
  diff : diff = revision.diff
  reviewer : reviewer = request.reviewerId

/-- A verdict is recorded by a submission that has made one call, the read of
its review. -/
def JudgesRead (request : ReviewReviewDiffRequest)
    (seen : List (Prog.Event CommentCall CommentCall.Resp CallError)) : CommentCall → Prop
  | .createVerdict diff revision reviewer _ => ∃ review,
      seen = [⟨.getReviewByNumber request.owner request.repo request.number, .ok (some review)⟩] ∧
        Judges request review diff revision reviewer
  | _ => True

section Obeys

variable {request : ReviewReviewDiffRequest}

/-- The calls that record no verdict. -/
def CommentCall.Silent : CommentCall → Prop
  | .createVerdict _ _ _ _ => False
  | _ => True

theorem judgesRead_of_silent (seen : List (Prog.Event CommentCall CommentCall.Resp CallError))
    (c : CommentCall) (hc : c.Silent) : JudgesRead request seen c := by
  cases c with
  | createVerdict _ _ _ _ => exact hc.elim
  | _ => trivial

theorem silent_getReviewAt (owner repo : String) (number : ℤ) :
    (getReviewAt owner repo number).Calls CommentCall.Silent :=
  calls_bind (fun _ => calls_liftExcept) (calls_perform trivial)

theorem silent_createComments (review : Uuid) (diff : DiffId) (reviewer : Uuid) :
    ∀ comments : List ReviewCommentInput,
      (createComments review diff reviewer comments).Calls CommentCall.Silent
  | [] => trivial
  | _ :: comments => by
    refine calls_bind (fun _ => silent_createComments review diff reviewer comments) ?_
    exact calls_perform trivial

/-- What follows the verdict. -/
theorem silent_rest (review : Review) (d : Diff) :
    Calls CommentCall.Silent (do
      createComments review.id ⟨review.id, d.position⟩ request.reviewerId request.comments
      askComment (.touchReview review.id)
      getReviewAt request.owner request.repo request.number) := by
  refine calls_bind (fun _ => ?_) (silent_createComments _ _ _ _)
  refine calls_bind (fun _ => silent_getReviewAt _ _ _) ?_
  exact calls_perform trivial

theorem orNotFound_eq_ok {α : Type} {a : Option α} {b : α} {entity id : String}
    (h : orNotFound a entity id = .ok b) : a = some b := by
  cases a with
  | none => cases h
  | some a => rw [Except.ok.inj h]

theorem obeys_createVerdictFor {review : Review} {d : Diff} (hmay : MayJudge request review)
    (hd : review.diffs.get? request.position = some d) :
    Obeys (JudgesRead request) (fun _ _ => True)
      [⟨.getReviewByNumber request.owner request.repo request.number, .ok (some review)⟩]
      (createVerdictFor d ⟨review.id, d.position⟩ request.reviewerId request.position
        request.action) := by
  have hjudges : ∀ v, d.latest? = some v →
      Judges request review ⟨review.id, d.position⟩ ⟨⟨review.id, d.position⟩, v.number⟩
        request.reviewerId :=
    fun v hv => ⟨hmay, by simp [latestRevision, hd, hv], rfl, rfl⟩
  have hcall : ∀ v, d.latest? = some v → ∀ verdict, Obeys (JudgesRead request) (fun _ _ => True)
      [⟨.getReviewByNumber request.owner request.repo request.number, .ok (some review)⟩]
      (askComment (.createVerdict ⟨review.id, d.position⟩ ⟨⟨review.id, d.position⟩, v.number⟩
        request.reviewerId verdict)) := by
    intro v hv verdict
    refine ⟨⟨review, rfl, hjudges v hv⟩, fun r => ?_⟩
    cases r <;> trivial
  unfold createVerdictFor
  cases request.action with
  | comment => trivial
  | approve =>
    exact obeys_liftExcept_bind (fun _ => trivial) fun v hv => hcall v (orNotFound_eq_ok hv) _
  | reject =>
    exact obeys_liftExcept_bind (fun _ => trivial) fun v hv => hcall v (orNotFound_eq_ok hv) _

/-- The review that is read first. -/
theorem obeys_read :
    Obeys (JudgesRead request)
      (fun seen r => ∀ review, r = .ok review → seen =
        [⟨.getReviewByNumber request.owner request.repo request.number, .ok (some review)⟩])
      [] (getReviewAt request.owner request.repo request.number) := by
  refine ⟨trivial, fun r => ?_⟩
  cases r with
  | error e => exact fun review h => nomatch h
  | ok found =>
    cases found with
    | none => exact fun review h => nomatch h
    | some review =>
      rintro review' h
      rw [← Except.ok.inj h]

theorem obeys_reviewReviewDiff :
    Obeys (JudgesRead request) (fun _ _ => True) [] (reviewReviewDiff request) := by
  have hrest : ∀ (review : Review) (d : Diff) seen, Obeys (JudgesRead request) (fun _ _ => True) seen (do
      createComments review.id ⟨review.id, d.position⟩ request.reviewerId request.comments
      askComment (.touchReview review.id)
      getReviewAt request.owner request.repo request.number) :=
    fun review d _ => (silent_rest review d).obeys judgesRead_of_silent fun _ _ => trivial
  unfold reviewReviewDiff
  refine obeys_bind (fun seen review hread => ?_) (fun _ _ _ => trivial) obeys_read
  rw [hread review rfl]
  refine obeys_liftExcept_bind (fun _ => trivial) fun d hd => ?_
  have hd : review.diffs.get? request.position = some d := orNotFound_eq_ok hd
  refine obeys_ite (fun _ => trivial) fun hmerged => obeys_ite (fun _ => trivial) fun hown => ?_
  by_cases hcomment : request.action = .comment
  · simp only [hcomment, createVerdictFor]
    exact hrest review d _
  · have hmay : MayJudge request review := by
      refine ⟨hcomment, fun heq => hown ⟨hcomment, heq⟩, ?_⟩
      rw [hd]
      simpa using fun hm => hmerged ⟨hcomment, hm⟩
    exact obeys_bind (fun seen _ _ => hrest review d seen) (fun _ _ _ => trivial)
      (obeys_createVerdictFor hmay hd)

end Obeys

/-! ### What an update does -/

section Updates

/-- The calls that create no review. -/
def Call.KeepsReviews (c : Call) : Prop := ¬ c.CreatesReview

theorem keepsReviews_ask {c : Call} (hc : c.KeepsReviews) : (ask c).Calls Call.KeepsReviews :=
  calls_perform hc

theorem keepsReviews_getReviewById (owner repo : String) (number : ℤ) :
    (getReviewById owner repo number).Calls Call.KeepsReviews :=
  calls_bind (fun _ => calls_liftExcept) (keepsReviews_ask nofun)

theorem keepsReviews_createDiffAt (id : Uuid) (position : ℤ) (previousSha : Sha) (commit : Commit) :
    (createDiffAt id position previousSha commit).Calls Call.KeepsReviews := by
  unfold createDiffAt
  refine calls_bind (fun d => ?_) (keepsReviews_ask nofun)
  refine calls_bind (fun _ => ?_) (keepsReviews_ask nofun)
  refine calls_bind (fun _ => ?_) (keepsReviews_ask nofun)
  exact keepsReviews_ask nofun

theorem keepsReviews_updateDiffAt (request : ProcessReviewRequest) (reviewNumber : ℤ) (id : Uuid)
    (position : ℤ) (previousSha : Sha) (commit : Commit) (existingDiff : Diff) :
    (updateDiffAt request reviewNumber id position previousSha commit existingDiff).Calls
      Call.KeepsReviews := by
  unfold updateDiffAt
  refine calls_bind (fun latestRevision => ?_) calls_liftExcept
  refine calls_bind (fun oldPatchId => ?_) (keepsReviews_ask nofun)
  refine calls_bind (fun newPatchId => calls_ite ?_ ?_) (keepsReviews_ask nofun)
  · refine calls_bind (fun _ => ?_) (keepsReviews_ask nofun)
    refine calls_bind (fun _ => ?_) (keepsReviews_ask nofun)
    exact keepsReviews_ask nofun
  · refine calls_bind (fun _ => ?_) (keepsReviews_ask nofun)
    refine calls_bind (fun _ => ?_) (keepsReviews_ask nofun)
    refine calls_bind (fun _ => ?_) (keepsReviews_ask nofun)
    exact keepsReviews_ask nofun

theorem keepsReviews_pushDiffs (request : ProcessReviewRequest) (reviewNumber : ℤ) (id : Uuid)
    (existingDiffs : Table Diff) : ∀ (commits : List Commit) (position : ℤ) (previousSha : Sha),
    (pushDiffs request reviewNumber id existingDiffs position previousSha commits).Calls
      Call.KeepsReviews
  | [], _, _ => trivial
  | commit :: commits, position, previousSha => by
    refine calls_bind (fun _ => keepsReviews_pushDiffs _ _ _ _ commits _ _) ?_
    cases existingDiffs.get? position with
    | some existingDiff => exact keepsReviews_updateDiffAt _ _ _ _ _ _ _
    | none => exact keepsReviews_createDiffAt _ _ _ _

theorem keepsReviews_processReviewUpdate (request : ProcessReviewRequest) :
    (processReviewUpdate request).Calls Call.KeepsReviews := by
  unfold processReviewUpdate
  refine calls_bind (fun reviewNumber => ?_) calls_liftExcept
  refine calls_bind (fun review => ?_) (keepsReviews_getReviewById _ _ _)
  refine calls_bind (fun targetSha => ?_) (keepsReviews_ask nofun)
  refine calls_bind (fun commits => calls_ite ?_ ?_) (keepsReviews_ask nofun)
  · trivial
  refine calls_bind (fun _ => ?_) (keepsReviews_pushDiffs _ _ _ _ _ _ _)
  refine calls_bind (fun _ => ?_) (keepsReviews_ask nofun)
  exact calls_bind (fun _ => keepsReviews_getReviewById _ _ _) (keepsReviews_ask nofun)

end Updates

/-! ### Runs -/

/-- What a request asks after what it has seen. -/
def Asks (op : ReviewOp) (seen : List (Prog.Event ReviewCall ReviewCall.Resp CallError)) :
    ReviewCall → Prop
  | .service _ _ c => c.KeepsReviews
  | .comment (.createVerdict diff revision reviewer _) => ∃ page request review,
      op = .reviewReviewDiff page request ∧
      seen = [⟨.comment (.getReviewByNumber request.owner request.repo request.number),
        .ok (some review)⟩] ∧ Judges request review diff revision reviewer
  | _ => True

/-- The page is the review that was read. -/
def Answers (op : ReviewOp) (seen : List (Prog.Event ReviewCall ReviewCall.Resp CallError))
    (r : Except ReviewError Review) : Prop :=
  ∀ owner repo number review, op = .getReview owner repo number → r = .ok review →
    seen = [⟨.service owner repo (.getReviewByNumber number), .ok (some review)⟩]

theorem obeys_reviewProgram (op : ReviewOp) :
    Obeys (Asks op) (Answers op) [] (reviewProgram op) := by
  cases op with
  | getReview owner repo number =>
    refine ⟨nofun, fun r => ?_⟩
    cases r with
    | error e => exact fun _ _ _ _ _ h => nomatch h
    | ok found =>
      cases found with
      | none => exact fun _ _ _ _ _ h => nomatch h
      | some review =>
        intro owner' repo' number' review' hop h
        obtain ⟨rfl, rfl, rfl⟩ := ReviewOp.getReview.inj hop
        rw [← Except.ok.inj h]
  | processReviewUpdate request =>
    refine obeys_mapCalls_nil ((keepsReviews_processReviewUpdate request).obeys ?_ ?_)
    · exact fun _ _ hc => hc
    · exact fun _ _ _ _ _ _ hop => nomatch hop
  | reviewReviewDiff page request =>
    refine obeys_mapCalls_nil (obeys_reviewReviewDiff.mono ?_ ?_)
    · intro seen c hc
      cases c with
      | createVerdict diff revision reviewer verdict =>
        obtain ⟨review, rfl, hjudges⟩ := hc
        exact ⟨page, request, review, rfl, rfl, hjudges⟩
      | _ => trivial
    · exact fun _ _ _ _ _ _ _ hop => nomatch hop

theorem Asks.keepsReviews {op : ReviewOp}
    {seen : List (Prog.Event ReviewCall ReviewCall.Resp CallError)} {c : ReviewCall}
    (h : Asks op seen c) : ¬ c.CreatesReview := by
  cases c with
  | service owner repo c => exact h
  | comment c => exact id

section Runs

variable {g : Git} {draw : ℕ → Uuid} {w : World} {P P₀ : ReviewPool}
  {guard : ReviewPool → ReviewMove → Prop}

theorem obeyed_reviews (h : Reach (fun P => P = idle w) (reviewNext g draw) guard P) :
    Obeyed Asks Answers P := by
  refine obeyed_run ?_ obeys_reviewProgram h
  rintro P rfl
  exact ⟨rfl, rfl⟩

/-- What was shown stays shown. -/
theorem shown_later {page : ℕ} {request : ReviewReviewDiffRequest} {v : RevisionId}
    (hl : Later (reviewCalls g draw) reviewProgram (fun e => nomatch e) guard P₀ P)
    (h : shown P₀ page request = some v) : shown P page request = some v := by
  unfold shown at h
  split at h
  · next owner repo number review hresult =>
    unfold shown
    rw [hl.result hresult]
    exact h
  · cases h

/-- Whoever submits has the page. -/
theorem shown_of_submission (h : Reach (fun P => P = idle w) (reviewNext g draw) AfterPage P)
    {n page : ℕ} {request : ReviewReviewDiffRequest}
    (hop : (P.threads[n]?).map Thread.op = some (.reviewReviewDiff page request)) :
    ∃ v, shown P page request = some v := by
  induction h with
  | start heq =>
    rw [heq] at hop
    cases hop
  | @next P m h hg ih =>
    have hl : Later (reviewCalls g draw) reviewProgram (fun e => nomatch e) AfterPage P
        (reviewNext g draw m P) := .next m (.start rfl) hg
    have hkept : ∀ {v}, shown P page request = some v →
        ∃ v, shown (reviewNext g draw m P) page request = some v := fun hv => ⟨_, shown_later hl hv⟩
    cases m with
    | start op =>
      obtain ⟨t, ht, htop⟩ := Option.map_eq_some_iff.mp hop
      rcases getElem?_start.mp ht with ht | ⟨-, rfl⟩
      · obtain ⟨v, hv⟩ := ih (by rw [ht, Option.map_some, htop])
        exact hkept hv
      · obtain rfl : op = .reviewReviewDiff page request := htop
        obtain ⟨v, hv⟩ := Option.isSome_iff_exists.mp hg
        exact hkept hv
    | step j fate =>
      rcases atCall_or_done P j with ⟨op, c, k, hj⟩ | hdone
      · rw [show reviewNext g draw (.step j fate) P = _ from next_step hj] at hop
        obtain ⟨t, ht, htop⟩ := Option.map_eq_some_iff.mp hop
        rcases (getElem?_step hj).mp ht with ⟨rfl, rfl⟩ | ⟨-, ht⟩
        · obtain ⟨v, hv⟩ := ih (by rw [hj, Option.map_some, ← htop])
          exact hkept hv
        · obtain ⟨v, hv⟩ := ih (by rw [ht, Option.map_some, htop])
          exact hkept hv
      · rw [show reviewNext g draw (.step j fate) P = P from hdone fate] at hop ⊢
        exact ih hop
    | env e => exact nomatch e

/-- **Between two reads.** A review that was read at a path is still found
there, and its diff has the latest revision it had unless a call has created
one since. -/
theorem latest_or_superseded
    (h₀ : Reach (fun P => P = idle w) (reviewNext g draw) guard P₀)
    (hl : Later (reviewCalls g draw) reviewProgram (fun e => nomatch e) guard P₀ P)
    {owner repo : String} {number : ℤ} (position : ℤ) {review : Review}
    (hreview : P₀.sys.store.getReviewByNumber owner repo number = some review) :
    ∃ review', P.sys.store.getReviewByNumber owner repo number = some review' ∧
      review'.id = review.id ∧ (latestRevision review' position = latestRevision review position ∨
        ∃ m older, m :: older <:+ P.sys.log ∧ P₀.sys.log <:+ older ∧
          m.call.Revises ⟨review.id, position⟩) := by
  induction hl with
  | start heq =>
    rw [heq]
    exact ⟨review, hreview, rfl, .inl rfl⟩
  | @next P m hl hg ih =>
    obtain ⟨review', hreview', hid, hlatest⟩ := ih
    have hobeyed := obeyed_reviews (h₀.trans hl)
    have hlog : P₀.sys.log <:+ P.sys.log := Later.log_suffix hl
    cases m with
    | start op => exact ⟨review', hreview', hid, hlatest⟩
    | step n fate =>
      rcases atCall_or_done P n with ⟨op, c, k, hn⟩ | hdone
      · have hkeeps : ¬ c.CreatesReview := Asks.keepsReviews (hobeyed.rests n _ hn).1
        rw [next_step hn]
        rcases perform_store (reviewCalls g draw) P.sys ⟨n, op⟩ c fate with hs | hs
        · refine ⟨review', ?_, hid, hlatest.imp id ?_⟩
          · rw [hs]
            exact hreview'
          · rintro ⟨m, older, hm, hrest⟩
            exact ⟨m, older, hm.trans (List.suffix_cons _ _), hrest⟩
        · have hkept : WorldKept c.Revises P.sys.store ((reviewCalls g draw).exec c P.sys.store).2 :=
            execReview_kept c P.sys.store hkeeps
          obtain ⟨review'', hreview'', hid', hrevised⟩ := hkept.latestAt position hreview'
          refine ⟨review'', ?_, hid'.trans hid, ?_⟩
          · rw [hs]
            exact hreview''
          · rcases hrevised with hrevises | hsame
            · rw [hid] at hrevises
              exact .inr ⟨_, P.sys.log, List.suffix_refl _, hlog, hrevises⟩
            · rw [hsame]
              refine hlatest.imp id ?_
              rintro ⟨m, older, hm, hrest⟩
              exact ⟨m, older, hm.trans (List.suffix_cons _ _), hrest⟩
      · rw [hdone]
        exact ⟨review', hreview', hid, hlatest⟩
    | env e => exact nomatch e

/-- The review that a page shows, in the store as the page has left it. -/
theorem page_read (h : Reach (fun P => P = idle w) (reviewNext g draw) guard P) {page : ℕ}
    {request : ReviewReviewDiffRequest} {r : RevisionId} (hshown : shown P page request = some r) :
    ∃ P₁ review, Reach (fun P => P = idle w) (reviewNext g draw) guard P₁ ∧
      Later (reviewCalls g draw) reviewProgram (fun e => nomatch e) guard P₁ P ∧
      seen page P₁.sys.log ≠ [] ∧
      P₁.sys.store.getReviewByNumber request.owner request.repo request.number = some review ∧
      latestRevision review request.position = some r := by
  unfold shown at hshown
  split at hshown
  · next owner repo number review hresult =>
    split_ifs at hshown with hpath
    obtain ⟨rfl, rfl, rfl⟩ := hpath
    have hseen := (obeyed_reviews h).rests page _ (result_ok.mp hresult) _ _ _ _ rfl rfl
    obtain ⟨⟨caller, before, c, answer⟩, older, hs, rfl, hevent, -⟩ := exists_of_seen_cons hseen
    cases hevent
    obtain ⟨Q, P₁, hmoment, hsys⟩ := h.moment (by rintro P rfl; exact List.not_mem_nil) hs
    have hfound : Q.sys.store.getReviewByNumber request.owner request.repo request.number =
        some review :=
      Except.ok.inj ((World.execService_read _ g _ _ _).symm.trans hmoment.exec)
    let read : ReviewCall :=
      .service request.owner request.repo (.getReviewByNumber request.number)
    have hkept : WorldKept read.Revises Q.sys.store ((reviewCalls g draw).exec read Q.sys.store).2 :=
      execReview_kept read Q.sys.store nofun
    rw [hmoment.exec_eq] at hkept
    obtain ⟨review', hreview', -, hlatest⟩ := hkept.latestAt request.position hfound
    refine ⟨P₁, review', hmoment.reach_next, hmoment.later, ?_, hreview', ?_⟩
    · have hrecord : ⟨caller, Q.sys.store, read, .ok (some review)⟩ ∈ P₁.sys.log := by
        rw [hmoment.sys]
        exact List.mem_cons_self
      exact List.ne_nil_of_mem (mem_seen.mpr ⟨_, hrecord, rfl, rfl⟩)
    · rw [← hshown]
      exact hlatest.resolve_left id
  · cases hshown

/-- A call records a verdict if it is `create_verdict`, and none otherwise. -/
theorem exec_verdicts (c : ReviewCall) (w : World) :
    ((reviewCalls g draw).exec c w).2.verdicts = w.verdicts ∨
      ∃ row : ReviewVerdict, c = .comment
          (.createVerdict row.diffId row.revisionId row.reviewerId row.verdict) ∧
        ((reviewCalls g draw).exec c w).2.verdicts = row :: w.verdicts := by
  cases c with
  | service owner repo c => exact .inl rfl
  | comment c =>
    cases c with
    | createVerdict diff revision reviewer verdict =>
      exact .inr ⟨⟨diff, revision, reviewer, verdict⟩, rfl, rfl⟩
    | createComment review diff revision author body parent place =>
      refine .inl ?_
      show (World.createComment _ _ _ _ _ _ _ _ _).2.verdicts = _
      unfold World.createComment
      dsimp only
      split_ifs
      · split <;> rfl
      · rfl
    | updateComment id body =>
      refine .inl ?_
      show (World.updateComment _ _ _).2.verdicts = _
      unfold World.updateComment
      split <;> rfl
    | getReviewByNumber _ _ _ => exact .inl rfl
    | getComment _ => exact .inl rfl
    | resolveComment _ _ => exact .inl rfl
    | touchReview _ => exact .inl rfl

/-- The verdicts of the store were recorded by calls, or were there before. -/
theorem verdicts_recorded (h : Reach (fun P => P = idle w) (reviewNext g draw) guard P) :
    ∃ rows, P.sys.store.verdicts = rows ++ w.verdicts ∧ ∀ row ∈ rows, ∃ m ∈ P.sys.log,
      m.call = .comment
        (.createVerdict row.diffId row.revisionId row.reviewerId row.verdict) := by
  refine h.invariant (I := fun P => ∃ rows, P.sys.store.verdicts = rows ++ w.verdicts ∧
    ∀ row ∈ rows, ∃ m ∈ P.sys.log, m.call = .comment
      (.createVerdict row.diffId row.revisionId row.reviewerId row.verdict)) ?_ ?_
  · rintro P rfl
    exact ⟨[], rfl, fun row hrow => absurd hrow List.not_mem_nil⟩
  · rintro P m ⟨rows, hrows, hmade⟩ _
    cases m with
    | start op => exact ⟨rows, hrows, hmade⟩
    | step n fate =>
      rcases atCall_or_done P n with ⟨op, c, k, hn⟩ | hdone
      · rw [show reviewNext g draw (.step n fate) P = _ from next_step hn]
        have hold : ∀ row ∈ rows, ∃ m ∈ (P.sys.perform (reviewCalls g draw) ⟨n, op⟩ c fate).2.log,
            m.call = .comment
              (.createVerdict row.diffId row.revisionId row.reviewerId row.verdict) := by
          intro row hrow
          obtain ⟨m, hm, hcall⟩ := hmade row hrow
          exact ⟨m, List.mem_cons_of_mem _ hm, hcall⟩
        rcases perform_store (reviewCalls g draw) P.sys ⟨n, op⟩ c fate with hs | hs
        · exact ⟨rows, (congrArg World.verdicts hs).trans hrows, hold⟩
        · rcases @exec_verdicts g draw c P.sys.store with hv | ⟨row, rfl, hv⟩
          · exact ⟨rows, ((congrArg World.verdicts hs).trans hv).trans hrows, hold⟩
          · refine ⟨row :: rows, ?_, fun row' hrow => ?_⟩
            · rw [hs, hv, hrows]
              rfl
            · rcases List.mem_cons.mp hrow with rfl | hrow
              · exact ⟨_, List.mem_cons_self, rfl⟩
              · exact hold row' hrow
      · rw [show reviewNext g draw (.step n fate) P = P from hdone fate]
        exact ⟨rows, hrows, hmade⟩
    | env e => exact nomatch e

/-- **Records.** A verdict that is recorded is for the latest revision that its
submission read, and that is the one shown unless it was superseded. -/
theorem verdict_of_record (h : Reach (fun P => P = idle w) (reviewNext g draw) AfterPage P)
    {m : Made ReviewOp ReviewCall ReviewCall.Resp CallError World} (hm : m ∈ P.sys.log)
    {diff : DiffId} {revision : RevisionId} {reviewer : Uuid} {verdict : Verdict}
    (hcall : m.call = .comment (.createVerdict diff revision reviewer verdict)) :
    ∃ page request before r, m.caller.op = .reviewReviewDiff page request ∧
      reviewer = request.reviewerId ∧ diff = revision.diff ∧ ReadBy P m.caller.number before ∧
      before.latestFor request = some revision ∧ shown P page request = some r ∧
      (revision = r ∨ Superseded P m.caller.number page diff) := by
  have hobeyed := obeyed_reviews h
  obtain ⟨newer, older, heq⟩ := List.append_of_mem hm
  have hsuffix : m :: older <:+ P.sys.log := ⟨newer, heq.symm⟩
  have hasks := hobeyed.calls m older hsuffix
  rw [hcall] at hasks
  obtain ⟨page, request, review, hop, hseen, hjudges⟩ := hasks
  -- the moment at which the submission read the review
  obtain ⟨⟨caller, before, c, answer⟩, older', hs, hnumber, hevent, hnil⟩ := exists_of_seen_cons hseen
  cases hevent
  have hs' := (hs.trans (List.suffix_cons m older)).trans hsuffix
  obtain ⟨P₀, P₁, hmoment, hsys⟩ := h.moment (by rintro P rfl; exact List.not_mem_nil) hs'
  have hnumber : caller.number = m.caller.number := hnumber
  have hcaller : caller.op = .reviewReviewDiff page request := by
    obtain ⟨t, ht, htop⟩ := hobeyed.callers m hm
    rw [← hmoment.op_eq (hnumber ▸ ht), htop, hop]
  have hlog : P₀.sys.log <:+ P.sys.log := by
    rw [hsys]
    exact (List.suffix_cons _ _).trans hs'
  have hfound : P₀.sys.store.getReviewByNumber request.owner request.repo request.number =
      some review := Except.ok.inj hmoment.exec
  -- what the page showed by then
  obtain ⟨k, hthread⟩ := hmoment.thread
  obtain ⟨r, hr⟩ : ∃ r, shown P₀ page request = some r :=
    shown_of_submission hmoment.reach (by rw [hthread, Option.map_some, hcaller])
  obtain ⟨Q, review₀, hQ, hlater, hpage, hreview₀, hlatest₀⟩ := page_read hmoment.reach hr
  obtain ⟨review', hreview', hid, hlatest⟩ :=
    latest_or_superseded hQ hlater request.position hreview₀
  obtain rfl := Option.some.inj (hreview'.symm.trans hfound)
  have hdiff : diff = ⟨review₀.id, request.position⟩ := by
    rw [hjudges.diff, latestRevision_diff hjudges.latest, hid]
  have hl : Later (reviewCalls g draw) reviewProgram (fun e => nomatch e) AfterPage P₀ P :=
    hmoment.later_call
  refine ⟨page, request, before, r, hop, hjudges.reviewer, hjudges.diff,
    ⟨_, older', hs', hnumber, hnil, rfl⟩, ?_, shown_later hl hr, ?_⟩
  · rw [show before = P₀.sys.store from (congrArg Sys.store hsys).symm]
    show Option.bind _ _ = _
    rw [hfound]
    exact hjudges.latest
  · rcases hlatest with hsame | ⟨m', older'', hm', hQ', hrevises⟩
    · rw [hlatest₀, hjudges.latest] at hsame
      exact .inl (Option.some.inj hsame)
    · refine .inr ⟨m', older'', hm'.trans hlog, ?_, ?_, hdiff ▸ hrevises⟩
      · obtain ⟨e, he⟩ := List.exists_mem_of_ne_nil _ hpage
        exact List.ne_nil_of_mem (mem_seen_of_suffix he hQ')
      · refine List.eq_nil_iff_forall_not_mem.mpr fun e he => ?_
        have he' := mem_seen_of_suffix he ((List.suffix_cons _ _).trans hm')
        rw [hsys, hnil] at he'
        exact List.not_mem_nil he'

/-- **Verdicts are for the latest revision.** Whatever pages are loaded, updates
pushed and verdicts submitted, in any interleaving of their calls and
whichever of these fail, every verdict recorded is a reviewer's, for the
revision that was the diff's latest when the submission read it; and that is
the one its page showed, unless a revision of the diff was created in between. -/
theorem verdicts_for_latest (h : Reach (fun P => P = idle w) (reviewNext g draw) AfterPage P) :
    VerdictsLatest w P := by
  obtain ⟨rows, hrows, hmade⟩ := verdicts_recorded h
  refine ⟨rows, hrows, fun row hrow => ?_⟩
  obtain ⟨m, hm, hcall⟩ := hmade row hrow
  obtain ⟨page, request, before, r, hop, hrest⟩ := verdict_of_record h hm hcall
  obtain ⟨t, ht, htop⟩ := (obeyed_reviews h).callers m hm
  refine ⟨m.caller.number, page, request, before, r, ?_, hrest⟩
  rw [ht, Option.map_some, htop, hop]

end Runs

/-! ### A change between the page and the verdict

User 1 has 2 under review for `main` at 1. User 2 loads the page and approves.
Commit 3 is another change on 1. -/

def judgedSetup : Setup where
  git := Git.ofHistory [⟨[], 0, 0⟩, ⟨[], 1, 1⟩, ⟨[1], 2, 2⟩, ⟨[1], 3, 3⟩] (by decide)
  validName _ := true
  offensive _ := false

def judgedStore : World :=
  play (serve judgedSetup)
    [.createUser 1 7, .updateCurrentUser 1 "alice", .createUser 2 8,
      .createRepository 3 1 "alice" "one" .user .publicRepo,
      .disk fun owner repo => if owner = "alice" ∧ repo = "one" then
        some fun ref => if ref = getTargetRef "main" then some 1 else none else none,
      .receivePack 5 [] ⟨"alice", "one", "main", none, 2, 1⟩,
      .publishReviewDiff [] 1 ⟨"alice", "one", 1, 1⟩,
      .publishReview [] 1 ⟨"alice", "one", 1⟩] emptyWorld

/-- The submission of user 2, with the page of the first request. -/
def approval : ReviewOp := .reviewReviewDiff 0 ⟨"alice", "one", 1, 1, 2, .approve, []⟩

def steps (n count : ℕ) : List ReviewMove := List.replicate count (.step n .answered)

/-- The page, the update to 3, and the approval. -/
def changedRun : List ReviewMove :=
  .start (.getReview "alice" "one" 1) :: steps 0 1 ++
    .start (.processReviewUpdate ⟨"alice", "one", "main", some 1, 3, 1⟩) :: steps 1 12 ++
    .start approval :: steps 2 4

/-- The page, the approval, and the update to 3 after the approval was read. -/
def judgedRun : List ReviewMove :=
  .start (.getReview "alice" "one" 1) :: steps 0 1 ++
    .start (.processReviewUpdate ⟨"alice", "one", "main", some 1, 3, 1⟩) :: steps 1 3 ++
    .start approval :: steps 2 1 ++ steps 1 9 ++ steps 2 3

theorem served_judgedStore : Served judgedSetup judgedStore := reach_play (.start rfl) (by decide)

theorem verdicts_for_latest_judgedRun :
    VerdictsLatest judgedStore
      (play (reviewNext judgedSetup.git fun _ => 0) judgedRun (idle judgedStore)) :=
  verdicts_for_latest (reach_play (.start rfl) (by decide +kernel))

/-- The approval is recorded for revision 2, which the reviewer has not seen. -/
theorem not_verdicts_shown_changedRun :
    ¬ ∀ (c : Setup) (draw : ℕ → Uuid) (w : World) (P : ReviewPool), Served c w →
      Reach (fun P => P = idle w) (reviewNext c.git draw) AfterPage P → VerdictsShown w P := by
  intro hall
  let P := play (reviewNext judgedSetup.git fun _ => 0) changedRun (idle judgedStore)
  obtain ⟨rows, hrows, hmade⟩ := hall judgedSetup (fun _ => 0) judgedStore P served_judgedStore
    (reach_play (.start rfl) (by decide +kernel))
  have hverdicts : P.sys.store.verdicts = [⟨⟨5, 1⟩, ⟨⟨5, 1⟩, 2⟩, 2, .approved⟩] := by decide +kernel
  have hbefore : judgedStore.verdicts = [] := by decide +kernel
  rw [hverdicts, hbefore, List.append_nil] at hrows
  obtain ⟨n, page, request, hop, -, -, hshown⟩ := hmade _ (hrows ▸ List.mem_singleton_self _)
  have hops : P.threads.map Thread.op = [.getReview "alice" "one" 1,
      .processReviewUpdate ⟨"alice", "one", "main", some 1, 3, 1⟩, approval] := by decide +kernel
  rw [← List.getElem?_map, hops] at hop
  have happroval : approval = .reviewReviewDiff page request := by
    match n with
    | 0 => cases hop
    | 1 => cases hop
    | 2 => exact Option.some.inj hop
    | n + 3 => cases hop
  obtain ⟨rfl, rfl⟩ := ReviewOp.reviewReviewDiff.inj happroval
  exact absurd hshown (by decide +kernel)

end Gitdot
