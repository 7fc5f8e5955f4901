/-
# Whether comments stay inside the review of the path

The handlers on comments authorize the caller for the review that the path
names, and act on the comment, the revisions and the parents that the
request names by their ids. Nothing connects the two: `StaysInside`, that
what a request replies to, edits, resolves or stores is of the review at its
path, holds exactly when the ids of the request are of that review
themselves (`IdsAgree`, `stays_inside_iff`). A comment of any review of the
server can be answered or resolved through a review of one's own
(`not_stays_inside`).

Key definitions: `CommentRequest`, `StaysInside`, `IdsAgree`, `Storing`.
Key theorems: `wp_replyToReviewComment`, `wp_resolveReviewComment`,
`wp_createComments`, `wp_reviewReviewDiff`, `stays_inside_iff`,
`not_stays_inside`.
-/
import Gitdot.Server.Comments

namespace Gitdot

open Lib Prog

variable {w : World} {draw : ℕ → Uuid} {F : CommentCall → World → Prop}

/-- Some call may fail from outside. -/
def AnyFault (F : CommentCall → World → Prop) : Prop := ∃ c w, F c w

/-! ### Replies, edits, resolutions -/

/-- The reply `reply_to_review_comment` makes to `parent`. -/
def replyTo (draw : ℕ → Uuid) (w : World) (request : ReplyToReviewCommentRequest)
    (parent : ReviewComment) : ReviewComment :=
  World.newComment (draw w.comments.rows.length) parent.reviewId parent.diffId parent.revisionId
    request.userId request.body (some parent.id) .none

/-- How a reply ends: it is made, or nothing is. -/
inductive ReplyOutcome (draw : ℕ → Uuid) (F : CommentCall → World → Prop) (w : World)
    (request : ReplyToReviewCommentRequest) :
    Except ReviewError ReviewComment → World → Prop where
  | refused (e : ReviewError) (hwhy : AnyFault F ∨
      ∀ parent, w.comments.get? request.commentId = some parent →
        w.hasRevision parent.revisionId = true →
        w.comments.insert? (replyTo draw w request parent) = none) :
    ReplyOutcome draw F w request (.error e) w
  | done {parent comments} (hparent : w.comments.get? request.commentId = some parent)
    (hrev : w.hasRevision parent.revisionId = true)
    (hins : w.comments.insert? (replyTo draw w request parent) = some comments) :
    ReplyOutcome draw F w request (.ok (replyTo draw w request parent))
      { w with comments := comments }

theorem wp_replyToReviewComment (request : ReplyToReviewCommentRequest) :
    wp (World.commentCalls draw) F (ReplyOutcome draw F w request)
      (replyToReviewComment request) w := by
  unfold replyToReviewComment
  refine (wp_perform_bind rfl).mpr ⟨fun hf => .refused _ (.inl ⟨_, _, hf⟩), ?_⟩
  rw [wp_bind, wp_liftExcept]
  cases hget : w.comments.get? request.commentId with
  | none => exact .refused _ (.inr fun _ h => absurd (hget.symm.trans h) (by simp))
  | some parent =>
    rw [orNotFound, andThen_ok]
    have hself : w.comments.get? parent.id = some parent :=
      Table.get?_key (Table.mem_rows_of_get? hget)
    have hfk : w.Referable parent.revisionId (some parent.id) ↔
        w.hasRevision parent.revisionId = true :=
      ⟨And.left, fun h => ⟨h, fun p hp => by rw [← Option.some.inj hp, hself]; rfl⟩⟩
    by_cases hdone : w.hasRevision parent.revisionId = true ∧
        w.comments.insert? (replyTo draw w request parent) ≠ none
    · obtain ⟨hrev, hins⟩ := hdone
      obtain ⟨comments, hins⟩ := Option.ne_none_iff_exists'.mp hins
      exact (wp_perform_ok (World.createComment_ok (hfk.mpr hrev) hins)).mpr
        ⟨fun hf => .refused _ (.inl ⟨_, _, hf⟩), .done hget hrev hins⟩
    · have hnone : w.hasRevision parent.revisionId = true →
          w.comments.insert? (replyTo draw w request parent) = none := fun hrev =>
        not_not.mp fun hins => hdone ⟨hrev, hins⟩
      obtain ⟨e, hx⟩ := World.createComment_error (fun h => hnone (hfk.mp h))
      refine (wp_perform_error hx).mpr ⟨fun hf => .refused _ (.inl ⟨_, _, hf⟩), .refused _ (.inr ?_)⟩
      intro p hp hrev
      obtain rfl := Option.some.inj (hget.symm.trans hp)
      exact hnone hrev

/-- How a resolution ends: it is made, or nothing is. -/
inductive ResolveOutcome (F : CommentCall → World → Prop) (w : World)
    (request : ResolveReviewCommentRequest) :
    Except ReviewError ReviewComment → World → Prop where
  | refused (e : ReviewError) (hwhy : AnyFault F ∨
      ∀ comment, w.comments.get? request.commentId = some comment → comment.parentId ≠ none) :
    ResolveOutcome F w request (.error e) w
  | unread (e : ReviewError) (hwhy : AnyFault F) :
    ResolveOutcome F w request (.error e) (w.resolveComment request.commentId request.resolved)
  | done {comment} (hget : w.comments.get? request.commentId = some comment)
    (htop : comment.parentId = none) :
    ResolveOutcome F w request (.ok { comment with resolved := request.resolved })
      (w.resolveComment request.commentId request.resolved)

theorem wp_resolveReviewComment (request : ResolveReviewCommentRequest) :
    wp (World.commentCalls draw) F (ResolveOutcome F w request) (resolveReviewComment request) w := by
  unfold resolveReviewComment
  refine (wp_perform_bind rfl).mpr ⟨fun hf => .refused _ (.inl ⟨_, _, hf⟩), ?_⟩
  rw [wp_bind, wp_liftExcept]
  cases hget : w.comments.get? request.commentId with
  | none => exact .refused _ (.inr fun _ h => absurd (hget.symm.trans h) (by simp))
  | some comment =>
    rw [orNotFound, andThen_ok]
    have hid : comment.id = request.commentId := Table.key_of_get? hget
    cases hparent : comment.parentId with
    | some p =>
      refine ResolveOutcome.refused _ (.inr fun c hc => ?_)
      obtain rfl := Option.some.inj (hget.symm.trans hc)
      simp [hparent]
    | none =>
      refine (wp_perform_bind rfl).mpr ⟨fun hf => .refused _ (.inl ⟨_, _, hf⟩), ?_⟩
      refine (wp_perform_bind rfl).mpr ⟨fun hf => .unread _ ⟨_, _, hf⟩, ?_⟩
      have hread : (w.resolveComment request.commentId request.resolved).comments.get?
          request.commentId = some { comment with resolved := request.resolved } := by
        rw [World.get?_resolveComment, hget]
        simp [hid]
      rw [wp_liftExcept, hread]
      exact .done hget hparent

/-- How an edit ends: it is made, or nothing is. -/
inductive EditOutcome (F : CommentCall → World → Prop) (w : World)
    (request : UpdateReviewCommentRequest) : Except ReviewError ReviewComment → World → Prop where
  | refused (e : ReviewError)
    (hwhy : AnyFault F ∨ w.comments.get? request.commentId = none) :
    EditOutcome F w request (.error e) w
  | done {comment w'} (hget : w.comments.get? request.commentId = some comment) :
    EditOutcome F w request (.ok { comment with body := request.body }) w'

theorem wp_updateReviewComment (request : UpdateReviewCommentRequest) :
    wp (World.commentCalls draw) F (EditOutcome F w request) (updateReviewComment request) w := by
  unfold updateReviewComment
  cases hget : w.comments.get? request.commentId with
  | none =>
    have hx : (World.commentCalls draw).exec (.updateComment request.commentId request.body) w =
        (.error (.database .rowNotFound), w) := by
      show w.updateComment _ _ = _
      simp only [World.updateComment, hget]
    exact (wp_perform_error hx).mpr
      ⟨fun hf => .refused _ (.inl ⟨_, _, hf⟩), .refused _ (.inr hget)⟩
  | some comment =>
    have hx : (World.commentCalls draw).exec (.updateComment request.commentId request.body) w =
        (.ok { comment with body := request.body }, { w with
          comments := w.comments.modify request.commentId (fun c => { c with body := request.body })
            fun _ => rfl }) := by
      show w.updateComment _ _ = _
      simp only [World.updateComment, hget]
    exact (wp_perform_ok hx).mpr ⟨fun hf => .refused _ (.inl ⟨_, _, hf⟩), .done hget⟩

/-! ### The comments of a submitted review -/

section Storing

variable (draw : ℕ → Uuid) (review : Uuid) (diff : DiffId) (reviewer : Uuid)

/-- The row of a submitted comment. -/
def submitted (w : World) (comment : ReviewCommentInput) : ReviewComment :=
  World.newComment (draw w.comments.rows.length) review diff comment.revisionId reviewer
    comment.body comment.parentId comment.place

/-- `w'` is `w` with these comments stored, in their order. -/
inductive Storing : World → List ReviewCommentInput → World → Prop where
  | nil (w : World) : Storing w [] w
  | cons {w : World} {comment comments rows w'}
    (hfk : w.Referable comment.revisionId comment.parentId)
    (hins : w.comments.insert? (submitted draw review diff reviewer w comment) = some rows)
    (h : Storing { w with comments := rows } comments w') : Storing w (comment :: comments) w'

/-- How the loop over the comments ends: it stores them all, or the ones
before the first that is refused. -/
inductive StoreOutcome (F : CommentCall → World → Prop) (w : World)
    (comments : List ReviewCommentInput) : Except ReviewError Unit → World → Prop where
  | all {w'} (h : Storing draw review diff reviewer w comments w') :
    StoreOutcome F w comments (.ok ()) w'
  | stopped {done comment rest w'} (e : ReviewError) (hsplit : comments = done ++ comment :: rest)
    (h : Storing draw review diff reviewer w done w')
    (hwhy : AnyFault F ∨ (w'.Referable comment.revisionId comment.parentId →
      w'.comments.insert? (submitted draw review diff reviewer w' comment) = none)) :
    StoreOutcome F w comments (.error e) w'

variable {draw review diff reviewer}

theorem wp_createComments : ∀ (comments : List ReviewCommentInput) {w : World},
    wp (World.commentCalls draw) F (StoreOutcome draw review diff reviewer F w comments)
      (createComments review diff reviewer comments) w
  | [], w => StoreOutcome.all (.nil w)
  | comment :: comments, w => by
    unfold createComments
    by_cases hdone : w.Referable comment.revisionId comment.parentId ∧
        w.comments.insert? (submitted draw review diff reviewer w comment) ≠ none
    · obtain ⟨hfk, hins⟩ := hdone
      obtain ⟨rows, hins⟩ := Option.ne_none_iff_exists'.mp hins
      refine (wp_perform_bind (World.createComment_ok hfk hins)).mpr
        ⟨fun hf => .stopped _ rfl (.nil w) (.inl ⟨_, _, hf⟩), ?_⟩
      refine wp_mono ?_ (wp_createComments comments)
      intro r w' h
      cases h with
      | all h => exact .all (.cons hfk hins h)
      | stopped e hsplit h hwhy => exact .stopped e (congrArg _ hsplit) (.cons hfk hins h) hwhy
    · have hnone : w.Referable comment.revisionId comment.parentId →
          w.comments.insert? (submitted draw review diff reviewer w comment) = none := fun hfk =>
        not_not.mp fun hins => hdone ⟨hfk, hins⟩
      obtain ⟨e, hx⟩ := World.createComment_error hnone
      exact (wp_perform_bind_error hx).mpr
        ⟨fun hf => .stopped _ rfl (.nil w) (.inl ⟨_, _, hf⟩), .stopped _ rfl (.nil w) (.inr hnone)⟩

/-- What storing comments leaves alone. -/
theorem Storing.frame {w w' : World} {comments : List ReviewCommentInput}
    (h : Storing draw review diff reviewer w comments w') :
    w' = { w with comments := w'.comments } := by
  induction h with
  | nil w => rfl
  | cons hfk hins h ih =>
    rw [ih]

theorem get?_submitted {w : World} {comment : ReviewCommentInput} {rows : Table ReviewComment}
    (hins : w.comments.insert? (submitted draw review diff reviewer w comment) = some rows)
    (id : Uuid) : rows.get? id =
      if id = (submitted draw review diff reviewer w comment).id then
        some (submitted draw review diff reviewer w comment)
      else w.comments.get? id :=
  Table.get?_insert? hins id

/-- The id drawn for a comment that is stored is new. -/
theorem get?_submitted_id {w : World} {comment : ReviewCommentInput} {rows : Table ReviewComment}
    (hins : w.comments.insert? (submitted draw review diff reviewer w comment) = some rows) :
    w.comments.get? (submitted draw review diff reviewer w comment).id = none :=
  Table.get?_none_of_insert? hins

/-- A comment that is there stays as it is. -/
theorem Storing.get? {w w' : World} {comments : List ReviewCommentInput}
    (h : Storing draw review diff reviewer w comments w') {id : Uuid} {c : ReviewComment}
    (hc : w.comments.get? id = some c) : w'.comments.get? id = some c := by
  induction h with
  | nil w => exact hc
  | @cons w comment comments rows w' hfk hins h ih =>
    have hne : id ≠ (submitted draw review diff reviewer w comment).id := by
      rintro rfl
      rw [get?_submitted_id hins] at hc
      cases hc
    refine ih ?_
    show rows.get? id = some c
    rw [get?_submitted hins, if_neg hne, hc]

theorem Storing.length {w w' : World} {comments : List ReviewCommentInput}
    (h : Storing draw review diff reviewer w comments w') :
    w'.comments.rows.length = w.comments.rows.length + comments.length := by
  induction h with
  | nil w => rfl
  | @cons w comment comments rows w' hfk hins h ih =>
    have hlen := Table.length_insert? hins
    have ih : w'.comments.rows.length = rows.rows.length + comments.length := ih
    rw [ih, hlen, List.length_cons]
    omega

/-- A row that is new after storing is one of the comments stored: of the
review, with the revision and the parent that comment names. -/
theorem Storing.new {w w' : World} {comments : List ReviewCommentInput}
    (h : Storing draw review diff reviewer w comments w') {c : ReviewComment}
    (hc : c ∈ w'.comments.rows) (hnew : w.comments.get? c.id = none) :
    ∃ pre comment post, comments = pre ++ comment :: post ∧
      c.revisionId = comment.revisionId ∧ c.parentId = comment.parentId ∧
      ∃ n, w.comments.rows.length ≤ n ∧ n < w.comments.rows.length + comments.length ∧
        c.id = draw n := by
  induction h with
  | nil w =>
    have := Table.get?_key hc
    rw [key_reviewComment, hnew] at this
    cases this
  | @cons w comment comments rows w' hfk hins h ih =>
    by_cases hid : c.id = (submitted draw review diff reviewer w comment).id
    · have hrow : rows.get? c.id = some (submitted draw review diff reviewer w comment) := by
        rw [get?_submitted hins, if_pos hid]
      have hc' : w'.comments.get? c.id = some c := Table.get?_key hc
      have heq : c = submitted draw review diff reviewer w comment :=
        Option.some.inj (hc'.symm.trans (h.get? hrow))
      refine ⟨[], comment, comments, rfl, ?_, ?_, w.comments.rows.length, le_rfl, ?_, hid⟩
      · rw [heq]
        rfl
      · rw [heq]
        rfl
      · simp
    · have hnone : rows.get? c.id = none := by
        rw [get?_submitted hins, if_neg hid, hnew]
      obtain ⟨pre, x, post, rfl, hrev, hparent, n, hle, hlt, hn⟩ := ih hc hnone
      have hlen := Table.length_insert? hins
      have hle : rows.rows.length ≤ n := hle
      have hlt : n < rows.rows.length + (pre ++ x :: post).length := hlt
      refine ⟨comment :: pre, x, post, rfl, hrev, hparent, n, by omega, ?_, hn⟩
      rw [List.length_cons]
      omega

/-- Every comment stored has its row. -/
theorem Storing.row {w w' : World} {comments : List ReviewCommentInput}
    (h : Storing draw review diff reviewer w comments w') {comment : ReviewCommentInput}
    (hc : comment ∈ comments) :
    ∃ c ∈ w'.comments.rows, w.comments.get? c.id = none ∧
      c.revisionId = comment.revisionId ∧ c.parentId = comment.parentId := by
  induction h with
  | nil w => cases hc
  | @cons w x comments rows w' hfk hins h ih =>
    rcases List.mem_cons.mp hc with rfl | hc
    · have hrow : rows.get? (submitted draw review diff reviewer w comment).id =
          some (submitted draw review diff reviewer w comment) := by
        rw [get?_submitted hins, if_pos rfl]
      exact ⟨_, Table.mem_rows_of_get? (h.get? hrow), get?_submitted_id hins, rfl, rfl⟩
    · obtain ⟨c, hmem, hnone, hrev, hparent⟩ := ih hc
      refine ⟨c, hmem, ?_, hrev, hparent⟩
      cases hget : w.comments.get? c.id with
      | none => rfl
      | some d =>
        have hkept : rows.get? c.id = some d := by
          have hne : c.id ≠ (submitted draw review diff reviewer w x).id := by
            intro hid
            rw [hid, get?_submitted_id hins] at hget
            cases hget
          rw [get?_submitted hins, if_neg hne, hget]
        rw [hkept] at hnone
        cases hnone

end Storing

/-- The action of a request may be taken on the diff. -/
def Acts (review : Review) (diff : Diff) (request : ReviewReviewDiffRequest) : Prop :=
  request.action = .comment ∨
    diff.status ≠ .merged ∧ request.reviewerId ≠ review.authorId ∧ diff.latest? ≠ none

/-- How the submission of a review ends: nothing is stored but perhaps the
verdict, or comments of the request are. -/
inductive ReviewOutcome (draw : ℕ → Uuid) (F : CommentCall → World → Prop) (w : World)
    (request : ReviewReviewDiffRequest) : Except ReviewError Review → World → Prop where
  | refused (e : ReviewError) (hwhy : AnyFault F ∨ ∀ review diff,
      w.getReviewByNumber request.owner request.repo request.number = some review →
      review.diffs.get? request.position = some diff → ¬ Acts review diff request) :
    ReviewOutcome draw F w request (.error e) w
  | stored {review diff verdicts done rest w' r}
    (hrev : w.getReviewByNumber request.owner request.repo request.number = some review)
    (hdiff : review.diffs.get? request.position = some diff) (hacts : Acts review diff request)
    (hsplit : request.comments = done ++ rest)
    (h : Storing draw review.id ⟨review.id, request.position⟩ request.reviewerId
      { w with verdicts := verdicts } done w')
    (hwhy : rest = [] ∨ AnyFault F ∨ ∃ comment post, rest = comment :: post ∧
      (w'.Referable comment.revisionId comment.parentId → w'.comments.insert?
        (submitted draw review.id ⟨review.id, request.position⟩ request.reviewerId w' comment) =
          none)) :
    ReviewOutcome draw F w request r w'

/-- The verdict before the comments: it is recorded if the action may be
taken. -/
theorem wp_createVerdictFor {diff : Diff} {id : DiffId} {reviewer : Uuid} {position : ℤ}
    {action : ReviewAction} :
    wp (World.commentCalls draw) F (fun r w' =>
        (∃ e, r = .error e ∧ w' = w ∧ (AnyFault F ∨ action ≠ .comment ∧ diff.latest? = none)) ∨
        r = .ok () ∧ (∃ verdicts, w' = { w with verdicts := verdicts }) ∧
          (action = .comment ∨ diff.latest? ≠ none))
      (createVerdictFor diff id reviewer position action) w := by
  cases action with
  | comment => exact .inr ⟨rfl, ⟨w.verdicts, rfl⟩, .inl rfl⟩
  | approve =>
    unfold createVerdictFor
    rw [wp_bind, wp_liftExcept]
    cases hrev : diff.latest? with
    | none => exact .inl ⟨_, rfl, rfl, .inr ⟨nofun, rfl⟩⟩
    | some revision =>
      refine (wp_perform_ok rfl).mpr ⟨fun hf => .inl ⟨_, rfl, rfl, .inl ⟨_, _, hf⟩⟩, ?_⟩
      exact .inr ⟨rfl, ⟨_, rfl⟩, .inr nofun⟩
  | reject =>
    unfold createVerdictFor
    rw [wp_bind, wp_liftExcept]
    cases hrev : diff.latest? with
    | none => exact .inl ⟨_, rfl, rfl, .inr ⟨nofun, rfl⟩⟩
    | some revision =>
      refine (wp_perform_ok rfl).mpr ⟨fun hf => .inl ⟨_, rfl, rfl, .inl ⟨_, _, hf⟩⟩, ?_⟩
      exact .inr ⟨rfl, ⟨_, rfl⟩, .inr nofun⟩

theorem wp_reviewReviewDiff (request : ReviewReviewDiffRequest) :
    wp (World.commentCalls draw) F (ReviewOutcome draw F w request) (reviewReviewDiff request) w := by
  unfold reviewReviewDiff getReviewAt
  rw [wp_bind]
  refine (wp_perform_bind rfl).mpr ⟨fun hf => .refused _ (.inl ⟨_, _, hf⟩), ?_⟩
  rw [wp_liftExcept]
  cases hrev : w.getReviewByNumber request.owner request.repo request.number with
  | none => exact .refused _ (.inr fun _ _ h => absurd (hrev.symm.trans h) (by simp))
  | some review =>
    rw [orNotFound, andThen_ok, wp_bind, wp_liftExcept]
    have hsame : ∀ {v d}, w.getReviewByNumber request.owner request.repo request.number = some v →
        v.diffs.get? request.position = some d → v = review ∧
          review.diffs.get? request.position = some d := fun hv hd => by
      obtain rfl := Option.some.inj (hrev.symm.trans hv)
      exact ⟨rfl, hd⟩
    cases hdiff : review.diffs.get? request.position with
    | none =>
      refine .refused _ (.inr fun v d hv hd => ?_)
      exact absurd (hdiff.symm.trans (hsame hv hd).2) (by simp)
    | some diff =>
      have hrefuse : ∀ e, ¬ Acts review diff request →
          ReviewOutcome draw F w request (.error e) w := fun e hnot =>
        .refused e (.inr fun v d hv hd => by
          obtain ⟨rfl, hd⟩ := hsame hv hd
          obtain rfl := Option.some.inj (hdiff.symm.trans hd)
          exact hnot)
      rw [orNotFound, andThen_ok, wp_ite]
      split_ifs with hmerged hown
      · exact hrefuse _ fun h => h.elim hmerged.1 fun h => h.1 hmerged.2
      · exact hrefuse _ fun h => h.elim hown.1 fun h => h.2.1 hown.2
      have hpos : diff.position = request.position := Table.key_of_get? hdiff
      rw [wp_bind, hpos]
      refine wp_mono ?_ wp_createVerdictFor
      rintro r w1 (⟨e, rfl, rfl, hwhy⟩ | ⟨rfl, ⟨verdicts, rfl⟩, hcan⟩)
      · rcases hwhy with hf | ⟨hact, hnone⟩
        · exact .refused e (.inl hf)
        · exact hrefuse e fun h => h.elim hact fun h => h.2.2 hnone
      have hacts : Acts review diff request := by
        by_cases ha : request.action = .comment
        · exact .inl ha
        · exact .inr ⟨fun h => hmerged ⟨ha, h⟩, fun h => hown ⟨ha, h⟩, hcan.resolve_left ha⟩
      rw [andThen_ok, wp_bind]
      refine wp_mono ?_ (wp_createComments _)
      intro r w' hout
      cases hout with
      | stopped e hsplit h hwhy =>
        refine .stored hrev hdiff hacts hsplit h (.inr ?_)
        exact hwhy.imp id fun h => ⟨_, _, rfl, h⟩
      | all h =>
        have hdone : ∀ r, ReviewOutcome draw F w request r w' := fun r =>
          .stored hrev hdiff hacts (List.append_nil _).symm h (.inl rfl)
        refine (wp_perform_bind rfl).mpr ⟨fun _ => hdone _, ?_⟩
        refine (wp_perform_bind rfl).mpr ⟨fun _ => hdone _, ?_⟩
        rw [wp_liftExcept]
        exact hdone _

/-! ### Inside the review of the path -/

/-- A request to one of the four handlers. -/
inductive CommentRequest where
  | reply (request : ReplyToReviewCommentRequest)
  | update (request : UpdateReviewCommentRequest)
  | resolve (request : ResolveReviewCommentRequest)
  | review (request : ReviewReviewDiffRequest)

/-- The comments a request submits. -/
def CommentRequest.comments : CommentRequest → List ReviewCommentInput
  | .review request => request.comments
  | _ => []

/-- The comment `id` is one of the review at the path. -/
def World.InReview (w : World) (owner repo : String) (number : ℤ) (id : Uuid) : Prop :=
  ∃ review comment, w.getReviewByNumber owner repo number = some review ∧
    w.comments.get? id = some comment ∧ comment.reviewId = review.id

/-- Whatever calls fail: the comment that an accepted request replies to,
edits or resolves is of the review at its path, and a comment it stores has
its revision in the diff it addresses and its parent in that review. -/
def StaysInside (draw : ℕ → Uuid) (w : World) : CommentRequest → Prop
  | .reply request => ∀ plan made, (w.replyToReviewCommentHandler draw plan request).1 = .ok made →
      ∀ p, made.parentId = some p → w.InReview request.owner request.repo request.number p
  | .update request => ∀ plan made, (w.updateReviewCommentHandler draw plan request).1 = .ok made →
      w.InReview request.owner request.repo request.number made.id
  | .resolve request => ∀ plan made,
      (w.resolveReviewCommentHandler draw plan request).1 = .ok made →
        w.InReview request.owner request.repo request.number made.id
  | .review request => ∀ plan, ∀ c ∈ (w.reviewReviewDiffHandler draw plan request).2.comments.rows,
      w.comments.get? c.id = none → ∃ review,
        w.getReviewByNumber request.owner request.repo request.number = some review ∧
        c.revisionId.diff = ⟨review.id, request.position⟩ ∧
        ∀ p, c.parentId = some p → (w.reviewReviewDiffHandler draw plan request).2.InReview
          request.owner request.repo request.number p

/-- The ids in the request agree with its path: the comment that the caller
may answer, edit or resolve is of the review at the path, and the first
submitted comments whose revision and parent exist have their revision in the
addressed diff and their parent in that review. -/
def IdsAgree (w : World) : CommentRequest → Prop
  | .reply request => ∀ review comment,
      w.getReviewByNumber request.owner request.repo request.number = some review →
      World.MayReview review request.userId →
      w.comments.get? request.commentId = some comment → w.hasRevision comment.revisionId = true →
      comment.reviewId = review.id
  | .update request => ∀ comment, w.comments.get? request.commentId = some comment →
      comment.authorId = request.userId →
      w.InReview request.owner request.repo request.number request.commentId
  | .resolve request => ∀ review comment,
      w.getReviewByNumber request.owner request.repo request.number = some review →
      review.authorId = request.userId →
      w.comments.get? request.commentId = some comment → comment.parentId = none →
      comment.reviewId = review.id
  | .review request => ∀ review diff,
      w.getReviewByNumber request.owner request.repo request.number = some review →
      World.MayReview review request.reviewerId →
      review.diffs.get? request.position = some diff → Acts review diff request →
      ∀ pre comment post, request.comments = pre ++ comment :: post →
        (∀ c ∈ pre ++ [comment], w.Referable c.revisionId c.parentId) →
        comment.revisionId.diff = ⟨review.id, request.position⟩ ∧
          ∀ p, comment.parentId = some p →
            w.InReview request.owner request.repo request.number p

/-- What the database draws for the comments of a request: new ids, which the
request cannot name, and each once. -/
structure Draws (draw : ℕ → Uuid) (w : World) (comments : List ReviewCommentInput) : Prop where
  new : ∀ n, w.comments.get? (draw n) = none
  unnamed : ∀ n, ∀ c ∈ comments, c.parentId ≠ some (draw n)
  distinct : ∀ m n, w.comments.rows.length ≤ m → m < n →
    n < w.comments.rows.length + comments.length → draw m ≠ draw n

section

variable {α : Type} {plan : List Bool} {authorized : Except AuthorizationError Unit}
  {p : CommentProg α}

/-- A handler that answers has authorized the caller. -/
theorem guarded_ok {made : α} (h : (w.guarded draw plan authorized p).1 = .ok made) :
    authorized = .ok () ∧ (run (World.commentCalls draw) p plan w).1 = .ok made := by
  cases authorized with
  | error e => cases h
  | ok u =>
    refine ⟨rfl, ?_⟩
    have h : ((run (World.commentCalls draw) p plan w).1.mapError AppError.review) = .ok made := h
    cases hr : (run (World.commentCalls draw) p plan w).1 with
    | error e =>
      rw [hr] at h
      cases h
    | ok a =>
      rw [hr] at h
      cases h
      rfl

theorem guarded_authorized (h : authorized = .ok ()) :
    w.guarded draw plan authorized p =
      ((run (World.commentCalls draw) p plan w).1.mapError .review,
        (run (World.commentCalls draw) p plan w).2) := by
  rw [h]
  rfl

/-- The state after any plan satisfies what `wp` promises of any failures. -/
theorem comment_wp (draw : ℕ → Uuid) (plan : List Bool) {Q : Except ReviewError α → World → Prop}
    (h : wp (World.commentCalls draw) (fun _ _ => True) Q p w) :
    Q (run (World.commentCalls draw) p plan w).1 (run (World.commentCalls draw) p plan w).2 :=
  wp_run h (allowed_anyFault p plan w)

theorem comment_wp_nil (draw : ℕ → Uuid) {Q : Except ReviewError α → World → Prop}
    (h : wp (World.commentCalls draw) (fun _ _ => False) Q p w) :
    Q (run (World.commentCalls draw) p [] w).1 (run (World.commentCalls draw) p [] w).2 :=
  wp_noFault.mp h

theorem not_anyFault : ¬ AnyFault fun (_ : CommentCall) (_ : World) => False :=
  fun ⟨_, _, h⟩ => h

end

theorem reply_inside_iff (request : ReplyToReviewCommentRequest)
    (hdraw : ∀ n, w.comments.get? (draw n) = none) :
    StaysInside draw w (.reply request) ↔ IdsAgree w (.reply request) := by
  constructor
  · intro h review parent hrev hmay hget hexists
    have hauth : w.verifyAuthorizedForReviewing
        ⟨request.userId, request.owner, request.repo, request.number⟩ = .ok () :=
      World.verifyAuthorizedForReviewing_ok.mpr ⟨review, hrev, hmay⟩
    have hout := comment_wp_nil draw (wp_replyToReviewComment (w := w) request)
    have hself : w.comments.get? parent.id = some parent :=
      Table.get?_key (Table.mem_rows_of_get? hget)
    generalize hr : run (World.commentCalls draw) (replyToReviewComment request) [] w = out at hout
    obtain ⟨r, w'⟩ := out
    cases hout with
    | refused e hwhy =>
      have hnone := (hwhy.resolve_left not_anyFault) parent hget hexists
      obtain ⟨c, hc⟩ := Table.insert?_eq_none_iff.mp hnone
      exact absurd ((hdraw _).symm.trans hc) nofun
    | @done parent' comments hparent hexists' hins =>
      obtain rfl := Option.some.inj (hget.symm.trans hparent)
      have hok : (w.replyToReviewCommentHandler draw [] request).1 =
          .ok (replyTo draw w request parent) := by
        rw [World.replyToReviewCommentHandler, guarded_authorized hauth, hr]
        rfl
      obtain ⟨review', comment, hrev', hcomment, hin⟩ := h [] _ hok parent.id rfl
      obtain rfl := Option.some.inj (hrev.symm.trans hrev')
      obtain rfl := Option.some.inj (hself.symm.trans hcomment)
      exact hin
  · intro h plan made hmade p hp
    obtain ⟨hauth, hrun⟩ := guarded_ok hmade
    obtain ⟨review, hrev, hmay⟩ := World.verifyAuthorizedForReviewing_ok.mp hauth
    have hout := comment_wp draw plan (wp_replyToReviewComment (w := w) request)
    rw [hrun] at hout
    generalize (run (World.commentCalls draw) (replyToReviewComment request) plan w).2 = w' at hout
    cases hout with
    | @done parent comments hparent hexists hins =>
      obtain rfl : parent.id = p := Option.some.inj hp
      exact ⟨review, parent, hrev, Table.get?_key (Table.mem_rows_of_get? hparent),
        h review parent hrev hmay hparent hexists⟩

theorem update_inside_iff (request : UpdateReviewCommentRequest) :
    StaysInside draw w (.update request) ↔ IdsAgree w (.update request) := by
  constructor
  · intro h comment hget hauthor
    have hauth : w.verifyAuthorizedForReviewComment ⟨request.userId, request.commentId⟩ = .ok () :=
      World.verifyAuthorizedForReviewComment_ok.mpr ⟨comment, hget, hauthor⟩
    have hout := comment_wp_nil draw (wp_updateReviewComment (w := w) request)
    generalize hr : run (World.commentCalls draw) (updateReviewComment request) [] w = out at hout
    obtain ⟨r, w'⟩ := out
    cases hout with
    | refused e hwhy =>
      exact absurd (hget.symm.trans (hwhy.resolve_left not_anyFault)) nofun
    | @done comment' w' hget' =>
      obtain rfl := Option.some.inj (hget.symm.trans hget')
      have hok : (w.updateReviewCommentHandler draw [] request).1 =
          .ok { comment with body := request.body } := by
        rw [World.updateReviewCommentHandler, guarded_authorized hauth, hr]
        rfl
      have hid : comment.id = request.commentId := Table.key_of_get? hget
      have hin := h [] _ hok
      rw [show ({ comment with body := request.body } : ReviewComment).id = request.commentId from
        hid] at hin
      exact hin
  · intro h plan made hmade
    obtain ⟨hauth, hrun⟩ := guarded_ok hmade
    obtain ⟨comment, hget, hauthor⟩ := World.verifyAuthorizedForReviewComment_ok.mp hauth
    have hout := comment_wp draw plan (wp_updateReviewComment (w := w) request)
    rw [hrun] at hout
    generalize (run (World.commentCalls draw) (updateReviewComment request) plan w).2 = w' at hout
    cases hout with
    | @done comment' w' hget' =>
      obtain rfl := Option.some.inj (hget.symm.trans hget')
      have hid : comment.id = request.commentId := Table.key_of_get? hget
      show w.InReview _ _ _ comment.id
      rw [hid]
      exact h comment hget hauthor

theorem resolve_inside_iff (request : ResolveReviewCommentRequest) :
    StaysInside draw w (.resolve request) ↔ IdsAgree w (.resolve request) := by
  constructor
  · intro h review comment hrev hauthor hget htop
    have hauth : w.verifyAuthorizedForReview
        ⟨request.userId, request.owner, request.repo, request.number⟩ = .ok () :=
      World.verifyAuthorizedForReview_ok.mpr ⟨review, hrev, hauthor⟩
    have hself : w.comments.get? comment.id = some comment :=
      Table.get?_key (Table.mem_rows_of_get? hget)
    have hout := comment_wp_nil draw (wp_resolveReviewComment (w := w) request)
    generalize hr : run (World.commentCalls draw) (resolveReviewComment request) [] w = out at hout
    obtain ⟨r, w'⟩ := out
    cases hout with
    | refused e hwhy => exact absurd htop ((hwhy.resolve_left not_anyFault) comment hget)
    | unread e hwhy => exact absurd hwhy not_anyFault
    | @done comment' hget' htop' =>
      obtain rfl := Option.some.inj (hget.symm.trans hget')
      have hok : (w.resolveReviewCommentHandler draw [] request).1 =
          .ok { comment with resolved := request.resolved } := by
        rw [World.resolveReviewCommentHandler, guarded_authorized hauth, hr]
        rfl
      obtain ⟨review', c, hrev', hc, hin⟩ := h [] _ hok
      obtain rfl := Option.some.inj (hrev.symm.trans hrev')
      obtain rfl := Option.some.inj (hself.symm.trans hc)
      exact hin
  · intro h plan made hmade
    obtain ⟨hauth, hrun⟩ := guarded_ok hmade
    obtain ⟨review, hrev, hauthor⟩ := World.verifyAuthorizedForReview_ok.mp hauth
    have hout := comment_wp draw plan (wp_resolveReviewComment (w := w) request)
    rw [hrun] at hout
    generalize (run (World.commentCalls draw) (resolveReviewComment request) plan w).2 = w' at hout
    cases hout with
    | @done comment hget htop =>
      exact ⟨review, comment, hrev, Table.get?_key (Table.mem_rows_of_get? hget),
        h review comment hrev hauthor hget htop⟩

section Submit

variable {review : Uuid} {diff : DiffId} {reviewer : Uuid} {verdicts : List ReviewVerdict} {w' : World}
  {done all : List ReviewCommentInput}

/-- The comments a submitted one may answer are those that were there: the
ids drawn in between are none that the request names. -/
theorem get?_named (hdraw : Draws draw w all)
    (h : Storing draw review diff reviewer { w with verdicts := verdicts } done w')
    {comment : ReviewCommentInput} (hc : comment ∈ all) {p : Uuid} (hp : comment.parentId = some p) :
    w'.comments.get? p = w.comments.get? p := by
  cases hget : w.comments.get? p with
  | some c => exact h.get? hget
  | none =>
    cases hget' : w'.comments.get? p with
    | none => rfl
    | some c =>
      have hid : c.id = p := Table.key_of_get? hget'
      obtain ⟨_, _, _, _, _, _, n, _, _, hn⟩ :=
        h.new (Table.mem_rows_of_get? hget') (by rw [hid]; exact hget)
      exact absurd (hp.trans (congrArg some (hid.symm.trans hn))) (hdraw.unnamed n comment hc)

theorem referable_storing (hdraw : Draws draw w all)
    (h : Storing draw review diff reviewer { w with verdicts := verdicts } done w')
    {comment : ReviewCommentInput} (hc : comment ∈ all) :
    w'.Referable comment.revisionId comment.parentId ↔
      w.Referable comment.revisionId comment.parentId := by
  have hrev : w'.hasRevision comment.revisionId = w.hasRevision comment.revisionId := by
    rw [h.frame]
    rfl
  unfold World.Referable
  rw [hrev]
  refine and_congr_right fun _ => forall₂_congr fun p hp => ?_
  rw [get?_named hdraw h hc hp]

theorem Storing.hasRevision {v : World} (h : Storing draw review diff reviewer v done w')
    (id : RevisionId) : w'.hasRevision id = v.hasRevision id := by
  rw [h.frame]
  rfl

theorem Storing.getReviewByNumber {v : World} (h : Storing draw review diff reviewer v done w')
    (owner repo : String) (number : ℤ) :
    w'.getReviewByNumber owner repo number = v.getReviewByNumber owner repo number := by
  rw [h.frame]
  rfl

theorem Storing.referable_mono {v : World} (h : Storing draw review diff reviewer v done w')
    {revision : RevisionId} {parent : Option Uuid} (hfk : v.Referable revision parent) :
    w'.Referable revision parent := by
  refine ⟨(h.hasRevision revision).trans hfk.1, fun p hp => ?_⟩
  obtain ⟨c, hc⟩ := Option.isSome_iff_exists.mp (hfk.2 p hp)
  rw [h.get? hc]
  rfl

/-- Comments that were stored have a revision and a parent to refer to. -/
theorem Storing.referable {v : World} (h : Storing draw review diff reviewer v done w') :
    ∀ c ∈ done, w'.Referable c.revisionId c.parentId := by
  induction h with
  | nil w => exact fun c hc => absurd hc List.not_mem_nil
  | cons hfk hins h ih =>
    intro c hc
    rcases List.mem_cons.mp hc with rfl | hc
    · exact (Storing.cons hfk hins h).referable_mono hfk
    · exact ih c hc

/-- The id drawn for the next comment is new. -/
theorem insert?_submitted_ne (hdraw : Draws draw w all) (hlen : done.length < all.length)
    (h : Storing draw review diff reviewer { w with verdicts := verdicts } done w')
    (comment : ReviewCommentInput) :
    w'.comments.insert? (submitted draw review diff reviewer w' comment) ≠ none := by
  intro hnone
  obtain ⟨c, hc⟩ := Table.insert?_eq_none_iff.mp hnone
  have hid : c.id = draw w'.comments.rows.length := Table.key_of_get? hc
  have hrows : w'.comments.rows.length = w.comments.rows.length + done.length := h.length
  have hnew : w.comments.get? c.id = none := by
    rw [hid]
    exact hdraw.new _
  obtain ⟨_, _, _, _, _, _, n, hle, hlt, hn⟩ := h.new (Table.mem_rows_of_get? hc) hnew
  have hlt : n < w.comments.rows.length + done.length := hlt
  refine hdraw.distinct n w'.comments.rows.length hle ?_ ?_ (hn.symm.trans hid)
  · rw [hrows]
    exact hlt
  · rw [hrows]
    omega

/-- Two splits of a list: what comes before `x` has the `a` that `x` comes after. -/
theorem mem_of_append_eq_append {α : Type} {done rest pre post : List α} {a x : α}
    (h : done ++ x :: rest = pre ++ a :: post) (hx : ∀ c ∈ pre ++ [a], c ≠ x) : a ∈ done := by
  rcases List.append_eq_append_iff.mp h with ⟨as, rfl, has⟩ | ⟨cs, rfl, hcs⟩
  · cases as with
    | nil =>
      obtain ⟨rfl, -⟩ := List.cons.inj has
      exact absurd rfl (hx _ (by simp))
    | cons a as =>
      obtain ⟨rfl, -⟩ := List.cons.inj has
      exact absurd rfl (hx _ (by simp))
  · cases cs with
    | nil =>
      obtain ⟨rfl, -⟩ := List.cons.inj hcs
      exact absurd rfl (hx _ (by simp))
    | cons a cs =>
      obtain ⟨rfl, -⟩ := List.cons.inj hcs
      simp

/-- The loop gets past a comment: what stops it is none of the comments up to it. -/
theorem Storing.mem_done (hdraw : Draws draw w all)
    (h : Storing draw review diff reviewer { w with verdicts := verdicts } done w')
    {rest pre post : List ReviewCommentInput} {comment : ReviewCommentInput}
    (hsplit : all = done ++ rest) (hall : all = pre ++ comment :: post)
    (hfk : ∀ c ∈ pre ++ [comment], w.Referable c.revisionId c.parentId)
    (hwhy : rest = [] ∨ ∃ x post, rest = x :: post ∧ (w'.Referable x.revisionId x.parentId →
      w'.comments.insert? (submitted draw review diff reviewer w' x) = none)) :
    comment ∈ done := by
  rcases hwhy with rfl | ⟨x, rest', rfl, hrefused⟩
  · rw [List.append_nil] at hsplit
    rw [← hsplit, hall]
    simp
  · have hlen : done.length < all.length := by
      rw [hsplit]
      simp
    refine mem_of_append_eq_append (hsplit.symm.trans hall) ?_
    rintro c hc rfl
    have hcmem : c ∈ all := by
      rw [hsplit]
      simp
    exact insert?_submitted_ne hdraw hlen h c
      (hrefused ((referable_storing hdraw h hcmem).mpr (hfk c hc)))

end Submit

theorem idsAgree_of_review_inside {request : ReviewReviewDiffRequest}
    (hdraw : Draws draw w request.comments) (h : StaysInside draw w (.review request)) :
    IdsAgree w (.review request) := by
  intro review diff hrev hmay hdiff hacts pre comment post hall hfk
  have hauth : w.verifyAuthorizedForReviewing
      ⟨request.reviewerId, request.owner, request.repo, request.number⟩ = .ok () :=
    World.verifyAuthorizedForReviewing_ok.mpr ⟨review, hrev, hmay⟩
  have hout := comment_wp_nil draw (wp_reviewReviewDiff (w := w) request)
  have hworld : (w.reviewReviewDiffHandler draw [] request).2 =
      (run (World.commentCalls draw) (reviewReviewDiff request) [] w).2 := by
    rw [World.reviewReviewDiffHandler, guarded_authorized hauth]
  have hin := h []
  rw [hworld] at hin
  generalize (run (World.commentCalls draw) (reviewReviewDiff request) [] w).1 = r at hout
  generalize (run (World.commentCalls draw) (reviewReviewDiff request) [] w).2 = w' at hout hin
  cases hout with
  | refused e hwhy =>
    exact absurd hacts ((hwhy.resolve_left not_anyFault) review diff hrev hdiff)
  | @stored review' diff' verdicts done rest w' r hrev' hdiff' hacts' hsplit hst hwhy =>
    obtain rfl := Option.some.inj (hrev.symm.trans hrev')
    have hmem : comment ∈ request.comments := by simp [hall]
    have hdone : comment ∈ done :=
      hst.mem_done hdraw hsplit hall hfk (hwhy.imp_right fun hwhy => hwhy.resolve_left not_anyFault)
    obtain ⟨c, hc, hnew, hcrev, hcparent⟩ := hst.row hdone
    obtain ⟨review', hrev', hcdiff, hcin⟩ := hin c hc hnew
    obtain rfl := Option.some.inj (hrev.symm.trans hrev')
    refine ⟨hcrev ▸ hcdiff, fun p hp => ?_⟩
    obtain ⟨review', parent, hrev', hparent, heq⟩ := hcin p (hcparent.trans hp)
    rw [hst.getReviewByNumber] at hrev'
    rw [get?_named hdraw hst hmem hp] at hparent
    exact ⟨review', parent, hrev', hparent, heq⟩

theorem review_inside_of_idsAgree {request : ReviewReviewDiffRequest}
    (hdraw : Draws draw w request.comments) (h : IdsAgree w (.review request)) :
    StaysInside draw w (.review request) := by
  intro plan c hc hnew
  have hold : c ∉ w.comments.rows := by
    intro hcw
    have hget := Table.get?_key hcw
    rw [key_reviewComment, hnew] at hget
    cases hget
  cases hauth : w.verifyAuthorizedForReviewing
      ⟨request.reviewerId, request.owner, request.repo, request.number⟩ with
  | error e =>
    rw [World.reviewReviewDiffHandler, hauth] at hc
    exact absurd hc hold
  | ok u =>
    obtain ⟨review, hrev, hmay⟩ := World.verifyAuthorizedForReviewing_ok.mp hauth
    have hout := comment_wp draw plan (wp_reviewReviewDiff (w := w) request)
    have hworld : (w.reviewReviewDiffHandler draw plan request).2 =
        (run (World.commentCalls draw) (reviewReviewDiff request) plan w).2 := by
      rw [World.reviewReviewDiffHandler, guarded_authorized hauth]
    rw [hworld] at hc ⊢
    generalize (run (World.commentCalls draw) (reviewReviewDiff request) plan w).1 = r at hout
    generalize (run (World.commentCalls draw) (reviewReviewDiff request) plan w).2 = w' at hout hc
    cases hout with
    | refused e hwhy => exact absurd hc hold
    | @stored review' diff verdicts done rest w' r hrev' hdiff hacts hsplit hst hwhy =>
      obtain rfl := Option.some.inj (hrev.symm.trans hrev')
      obtain ⟨pre, comment, post, rfl, hcrev, hcparent, -⟩ := hst.new hc hnew
      have hall : request.comments = pre ++ comment :: (post ++ rest) := by
        rw [hsplit]
        simp
      have hfk : ∀ x ∈ pre ++ [comment], w.Referable x.revisionId x.parentId := by
        intro x hx
        have hxdone : x ∈ pre ++ comment :: post := by
          rcases List.mem_append.mp hx with hx | hx
          · exact List.mem_append_left _ hx
          · rw [List.mem_singleton.mp hx]
            simp
        have hxall : x ∈ request.comments := by
          rw [hsplit]
          exact List.mem_append_left _ hxdone
        exact (referable_storing hdraw hst hxall).mp (hst.referable x hxdone)
      obtain ⟨hdiff', hparents⟩ := h review diff hrev hmay hdiff hacts pre comment _ hall hfk
      refine ⟨review, hrev, hcrev ▸ hdiff', fun p hp => ?_⟩
      obtain ⟨review', parent, hrev', hparent, heq⟩ := hparents p (hcparent ▸ hp)
      refine ⟨review', parent, ?_, hst.get? hparent, heq⟩
      rw [hst.getReviewByNumber]
      exact hrev'

theorem review_inside_iff (request : ReviewReviewDiffRequest)
    (hdraw : Draws draw w request.comments) :
    StaysInside draw w (.review request) ↔ IdsAgree w (.review request) :=
  ⟨idsAgree_of_review_inside hdraw, review_inside_of_idsAgree hdraw⟩

/-- **Inside the review.** For every store and every request to the four
handlers: whatever calls fail, what the request replies to, edits, resolves or
stores is of the review at its path exactly if its ids agree with the path. -/
theorem stays_inside_iff (w : World) (draw : ℕ → Uuid) (request : CommentRequest)
    (hdraw : Draws draw w request.comments) :
    StaysInside draw w request ↔ IdsAgree w request := by
  cases request with
  | reply request => exact reply_inside_iff request hdraw.new
  | update request => exact update_inside_iff request
  | resolve request => exact resolve_inside_iff request
  | review request => exact review_inside_iff request hdraw

/-! ### Two repositories

User 1 owns `alice/one`, user 2 `bob/two`, each with a review of its owner's;
comment 40 is on the review in `bob/two`. -/

/-- An open review of one diff. -/
def oneDiffReview (id author : Uuid) : Review where
  id := id
  number := 1
  authorId := author
  title := ""
  description := ""
  targetBranch := "main"
  status := .open
  diffs := Table.empty.upsert ⟨1, "", .open, Table.empty.upsert ⟨1, 2, 1⟩⟩
  reviewers := []

/-- The store with the two repositories. -/
def twoRepositories : World where
  users := (Table.empty.upsert ⟨1, "alice"⟩).upsert ⟨2, "bob"⟩
  organizations := .empty
  members := []
  repositories :=
    (Table.empty.upsert ⟨20, "one", 1, .user, .publicRepo, false,
      Table.empty.upsert (oneDiffReview 30 1)⟩).upsert
      ⟨21, "two", 2, .user, .privateRepo, false, Table.empty.upsert (oneDiffReview 31 2)⟩
  comments := Table.empty.upsert ⟨40, 31, ⟨31, 1⟩, ⟨⟨31, 1⟩, 1⟩, 2, none, "", .none, false⟩
  verdicts := []
  disk _ _ := none

theorem stays_inside_iff_twoRepositories :
    StaysInside (fun _ => 50) twoRepositories
        (.review ⟨"alice", "one", 1, 1, 1, .comment, [⟨⟨⟨31, 1⟩, 1⟩, some 40, "", .none⟩]⟩) ↔
      IdsAgree twoRepositories
        (.review ⟨"alice", "one", 1, 1, 1, .comment, [⟨⟨⟨31, 1⟩, 1⟩, some 40, "", .none⟩]⟩) := by
  refine stays_inside_iff _ _ _ ⟨fun _ => by decide, fun _ c hc => ?_, fun m n hm hmn hn => ?_⟩
  · rw [List.mem_singleton.mp hc]
    decide
  · have hlen : n < 1 + 1 := hn
    have hm : 1 ≤ m := hm
    omega

/-- User 1 replies to comment 40 through the review of `alice/one`. -/
theorem not_stays_inside :
    ¬ ∀ (w : World) (draw : ℕ → Uuid) (request : CommentRequest), Draws draw w request.comments →
      StaysInside draw w request := by
  intro h
  have hdraw : Draws (fun _ => 50) twoRepositories [] :=
    ⟨fun _ => by decide, fun _ c hc => absurd hc List.not_mem_nil,
      fun m n hm hmn hn => by simp only [List.length_nil] at hn; omega⟩
  have hreply : (twoRepositories.replyToReviewCommentHandler (fun _ => 50) []
      ⟨"alice", "one", 1, 40, 1, "hi"⟩).1 =
        .ok ⟨50, 31, ⟨31, 1⟩, ⟨⟨31, 1⟩, 1⟩, 1, some 40, "hi", .none, false⟩ := by decide +kernel
  obtain ⟨review, comment, hreview, hcomment, hin⟩ :=
    h twoRepositories _ (.reply ⟨"alice", "one", 1, 40, 1, "hi"⟩) hdraw [] _ hreply 40 rfl
  have hpath : twoRepositories.getReviewByNumber "alice" "one" 1 = some (oneDiffReview 30 1) := by
    decide +kernel
  have hrow : (twoRepositories.comments.get? 40).map ReviewComment.reviewId = some 31 := by
    decide +kernel
  obtain rfl := Option.some.inj (hreview.symm.trans hpath)
  rw [hcomment] at hrow
  have hid : comment.reviewId = 31 := Option.some.inj hrow
  rw [hid] at hin
  exact absurd hin (by decide)

end Gitdot
