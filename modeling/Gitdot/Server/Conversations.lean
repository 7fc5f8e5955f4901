/-
# Conversations on a review

Runs of the requests on comments. Whatever they are, the comments of the
store form a forest: a comment is stored under a new id, and what it answers
is stored already (`conversing_talk`).

A resolution writes the flag of the comment it names and of the direct
replies to it. It covers the whole thread exactly when the replies further
down have the flag it writes already (`resolve_covers_iff`).

Key definitions: `CommentRequest.serve`, `World.talk`, `World.Conversing`,
`World.RepliesTo`, `ResolvedThread`, `World.NestedSettled`.
Key theorems: `conversing_talk`, `resolve_covers_iff`, `not_resolve_covers`.
-/
import Gitdot.Lib.Forest
import Gitdot.Server.Inside

namespace Gitdot

open Lib Prog

/-! ### Runs -/

/-- The store a request leaves behind. -/
def CommentRequest.serve (draw : ℕ → Uuid) (plan : List Bool) (w : World) : CommentRequest → World
  | .reply request => (w.replyToReviewCommentHandler draw plan request).2
  | .update request => (w.updateReviewCommentHandler draw plan request).2
  | .resolve request => (w.resolveReviewCommentHandler draw plan request).2
  | .review request => (w.reviewReviewDiffHandler draw plan request).2

/-- A request, the ids the database draws for it and the calls of it that
fail. -/
structure CommentEvent where
  request : CommentRequest
  draw : ℕ → Uuid
  plan : List Bool

/-- The requests served one after the other. -/
def World.talk (w : World) (events : List CommentEvent) : World :=
  events.foldl (fun w e => e.request.serve e.draw e.plan w) w

/-! ### The forest of the comments -/

/-- The comments are a forest, in which every parent is there. -/
structure World.Conversing (w : World) : Prop where
  linked : Linked ReviewComment.id ReviewComment.parentId w.comments.rows
  present : ∀ c ∈ w.comments.rows, ∀ p, c.parentId = some p → (w.comments.get? p).isSome = true

section Conversing

variable {w : World}

/-- Comments rewritten without their ids and parents. -/
theorem World.Conversing.map (h : w.Conversing) {f : ReviewComment → ReviewComment}
    {comments : Table ReviewComment} (hrows : comments.rows = w.comments.rows.map f)
    (hid : ∀ c, (f c).id = c.id) (hparent : ∀ c, (f c).parentId = c.parentId) :
    ({ w with comments := comments } : World).Conversing := by
  refine ⟨?_, fun c hc p hp => ?_⟩
  · show Linked _ _ comments.rows
    rw [hrows]
    exact h.linked.map hid hparent
  · have hc : c ∈ w.comments.rows.map f := hrows ▸ hc
    obtain ⟨d, hd, rfl⟩ := List.mem_map.mp hc
    obtain ⟨q, hq⟩ := Option.isSome_iff_exists.mp (h.present d hd p ((hparent d).symm.trans hp))
    have hmem : f q ∈ comments.rows := hrows ▸ List.mem_map_of_mem (Table.mem_rows_of_get? hq)
    have hkey : (f q).id = p := (hid q).trans (Table.key_of_get? hq)
    have hget : comments.get? p = some (f q) := hkey ▸ Table.get?_key hmem
    exact Option.isSome_iff_exists.mpr ⟨f q, hget⟩

/-- A new comment answers one that is there. -/
theorem World.Conversing.insert (h : w.Conversing) {c : ReviewComment}
    {comments : Table ReviewComment} (hins : w.comments.insert? c = some comments)
    (hparent : ∀ p ∈ c.parentId, (w.comments.get? p).isSome = true) :
    ({ w with comments := comments } : World).Conversing := by
  have hnone : w.comments.get? c.id = none := Table.get?_none_of_insert? hins
  have hpresent : ∀ d ∈ c :: w.comments.rows, ∀ p, d.parentId = some p →
      (w.comments.get? p).isSome = true := by
    intro d hd p hp
    rcases List.mem_cons.mp hd with rfl | hd
    · exact hparent p hp
    · exact h.present d hd p hp
  have hnew : c.id ∉ w.comments.rows.map ReviewComment.id := by
    intro hmem
    obtain ⟨d, hd, hid⟩ := List.mem_map.mp hmem
    exact Table.get?_eq_none_iff.mp hnone d hd hid
  have hfree : ∀ d ∈ c :: w.comments.rows, d.parentId ≠ some c.id := by
    intro d hd hp
    have := hpresent d hd _ hp
    rw [hnone] at this
    cases this
  have hsub : comments.rows ⊆ c :: w.comments.rows := fun d hd =>
    List.mem_cons.mpr ((Table.mem_insert? hins).mp hd)
  refine ⟨(h.linked.cons hnew hfree).subset comments.nodup_keys hsub, fun d hd p hp => ?_⟩
  have hold := hpresent d (hsub hd) p hp
  show (comments.get? p).isSome = true
  rw [Table.get?_insert? hins]
  split_ifs
  · rfl
  · exact hold

/-- What every call on the comments keeps. -/
theorem conversing_execComment (draw : ℕ → Uuid) (c : CommentCall) (h : w.Conversing) :
    (World.execComment draw c w).2.Conversing := by
  cases c with
  | getReviewByNumber _ _ _ => exact h
  | getComment _ => exact h
  | createComment review diff revision author body parent place =>
    show (w.createComment (draw w.comments.rows.length) review diff revision author body parent
      place).2.Conversing
    by_cases hdone : w.Referable revision parent ∧ ∃ comments, w.comments.insert?
        (World.newComment (draw w.comments.rows.length) review diff revision author body parent
          place) = some comments
    · obtain ⟨hfk, comments, hins⟩ := hdone
      rw [World.createComment_ok hfk hins]
      exact h.insert hins hfk.2
    · obtain ⟨e, he⟩ := World.createComment_error fun hfk =>
        Option.eq_none_iff_forall_ne_some.mpr fun comments hins => hdone ⟨hfk, comments, hins⟩
      rw [he]
      exact h
  | updateComment id body =>
    show (w.updateComment id body).2.Conversing
    unfold World.updateComment
    split
    · exact h
    · refine h.map (f := fun c => if c.id = id then { c with body := body } else c) rfl ?_ ?_
      · intro c
        split_ifs <;> rfl
      · intro c
        split_ifs <;> rfl
  | resolveComment id resolved =>
    refine h.map (f := fun c =>
      if c.id = id ∨ c.parentId = some id then { c with resolved := resolved } else c) rfl ?_ ?_
    · intro c
      split_ifs <;> rfl
    · intro c
      split_ifs <;> rfl
  | createVerdict _ _ _ _ => exact ⟨h.linked, h.present⟩
  | touchReview _ => exact h

theorem conversing_guarded {α : Type} (draw : ℕ → Uuid) (plan : List Bool)
    (authorized : Except AuthorizationError Unit) (p : CommentProg α) (h : w.Conversing) :
    (w.guarded draw plan authorized p).2.Conversing := by
  have hrun : (run (World.commentCalls draw) p plan w).2.Conversing :=
    run_keeps (P := World.Conversing) (fun c _ hc => conversing_execComment draw c hc) h
  cases authorized with
  | error e => exact h
  | ok u => exact hrun

theorem conversing_serve (draw : ℕ → Uuid) (plan : List Bool) (request : CommentRequest)
    (h : w.Conversing) : (request.serve draw plan w).Conversing := by
  cases request <;> exact conversing_guarded draw plan _ _ h

end Conversing

/-- In every run the comments stay a forest. -/
theorem conversing_talk : ∀ (events : List CommentEvent) {w : World}, w.Conversing →
    (w.talk events).Conversing
  | [], _, h => h
  | e :: events, _, h => conversing_talk events (conversing_serve e.draw e.plan e.request h)

/-! ### Threads -/

namespace World

/-- The comment `c` answers the comment `p`. -/
def Answers (w : World) (c p : Uuid) : Prop :=
  ∃ row, w.comments.get? c = some row ∧ row.parentId = some p

/-- `c` is a direct or indirect reply to `root`. -/
def RepliesTo (w : World) : Uuid → Uuid → Prop := Relation.TransGen w.Answers

/-- The replies to replies under `root` have this flag. -/
def NestedSettled (w : World) (root : Uuid) (resolved : Bool) : Prop :=
  ∀ k c, w.RepliesTo k root → w.comments.get? k = some c → c.parentId ≠ some root →
    c.resolved = resolved

end World

/-- From `w` to `w'` the thread under `root` got this flag, and nothing outside
of it changed. -/
structure ResolvedThread (w w' : World) (root : Uuid) (resolved : Bool) : Prop where
  thread : ∀ k c, w'.RepliesTo k root → w'.comments.get? k = some c → c.resolved = resolved
  rest : ∀ k, k ≠ root → ¬ w'.RepliesTo k root → w'.comments.get? k = w.comments.get? k

section Threads

variable {w : World} {root : Uuid} {resolved : Bool}

theorem answers_resolveComment {c p : Uuid} :
    (w.resolveComment root resolved).Answers c p ↔ w.Answers c p := by
  unfold World.Answers
  rw [World.get?_resolveComment]
  cases w.comments.get? c with
  | none => simp
  | some row =>
    simp only [Option.map_some, Option.some.injEq, exists_eq_left']
    split_ifs <;> exact Iff.rfl

theorem repliesTo_resolveComment {c p : Uuid} :
    (w.resolveComment root resolved).RepliesTo c p ↔ w.RepliesTo c p := by
  have : (w.resolveComment root resolved).Answers = w.Answers :=
    funext fun _ => funext fun _ => propext answers_resolveComment
  rw [World.RepliesTo, World.RepliesTo, this]

/-- A reply to a top comment is not that comment. -/
theorem ne_of_repliesTo {c : ReviewComment} (hroot : w.comments.get? root = some c)
    (htop : c.parentId = none) {k : Uuid} (h : w.RepliesTo k root) : k ≠ root := by
  rintro rfl
  obtain ⟨p, ⟨row, hrow, hp⟩, _⟩ := Relation.TransGen.head'_iff.mp h
  rw [Option.some.inj (hroot.symm.trans hrow), hp] at htop
  cases htop

/-- The update covers the thread of a top comment exactly when the replies
that it does not reach have the flag already. -/
theorem resolvedThread_iff {comment : ReviewComment} (hroot : w.comments.get? root = some comment)
    (htop : comment.parentId = none) :
    ResolvedThread w (w.resolveComment root resolved) root resolved ↔
      w.NestedSettled root resolved := by
  constructor
  · intro h k c hk hc hdirect
    have hne : c.id ≠ root := by
      have hkey : c.id = k := Table.key_of_get? hc
      rw [hkey]
      exact ne_of_repliesTo hroot htop hk
    refine h.thread k c (repliesTo_resolveComment.mpr hk) ?_
    rw [World.get?_resolveComment, hc, Option.map_some, if_neg (not_or.mpr ⟨hne, hdirect⟩)]
  · intro h
    refine ⟨fun k c hk hc => ?_, fun k hne hnot => ?_⟩
    · rw [World.get?_resolveComment] at hc
      obtain ⟨row, hrow, rfl⟩ := Option.map_eq_some_iff.mp hc
      split_ifs with hreached
      · rfl
      · exact h k row (repliesTo_resolveComment.mp hk) hrow (not_or.mp hreached).2
    · rw [World.get?_resolveComment]
      cases hrow : w.comments.get? k with
      | none => rfl
      | some row =>
        have hkey : row.id = k := Table.key_of_get? hrow
        have hindirect : row.parentId ≠ some root := fun hp =>
          hnot (repliesTo_resolveComment.mpr (.single ⟨row, hrow, hp⟩))
        rw [Option.map_some, if_neg (not_or.mpr ⟨hkey ▸ hne, hindirect⟩)]

end Threads

/-- **What a resolution covers.** In every store that a run of requests leaves
behind, a resolution that answers `Ok` gives its flag to every direct and
indirect reply, and changes nothing else, exactly when the replies to replies
had that flag before. -/
theorem resolve_covers_iff (w : World) (events : List CommentEvent) (draw : ℕ → Uuid)
    (plan : List Bool) (request : ResolveReviewCommentRequest) (made : ReviewComment)
    (hok : ((w.talk events).resolveReviewCommentHandler draw plan request).1 = .ok made) :
    ResolvedThread (w.talk events)
        ((w.talk events).resolveReviewCommentHandler draw plan request).2
        request.commentId request.resolved ↔
      (w.talk events).NestedSettled request.commentId request.resolved := by
  generalize w.talk events = w at hok ⊢
  obtain ⟨hauth, hrun⟩ := guarded_ok hok
  have hout := comment_wp draw plan (wp_resolveReviewComment (w := w) request)
  have hstore : (w.resolveReviewCommentHandler draw plan request).2 =
      (run (World.commentCalls draw) (resolveReviewComment request) plan w).2 := by
    rw [World.resolveReviewCommentHandler, guarded_authorized hauth]
  rw [hstore]
  rw [hrun] at hout
  generalize (run (World.commentCalls draw) (resolveReviewComment request) plan w).2 = w' at hout
  cases hout with
  | done hget htop => exact resolvedThread_iff hget htop

/-- User 2 answers comment 40 and then the own answer. -/
def nestedReplies : List CommentEvent :=
  [⟨.reply ⟨"bob", "two", 1, 40, 2, "one"⟩, fun n => Fin.ofNat _ (50 + n), []⟩,
    ⟨.reply ⟨"bob", "two", 1, 51, 2, "two"⟩, fun n => Fin.ofNat _ (50 + n), []⟩]

theorem resolve_covers_iff_nestedReplies :
    ResolvedThread (twoRepositories.talk nestedReplies)
        ((twoRepositories.talk nestedReplies).resolveReviewCommentHandler (fun _ => 50) []
          ⟨"bob", "two", 1, 40, 2, true⟩).2 40 true ↔
      (twoRepositories.talk nestedReplies).NestedSettled 40 true := by
  refine resolve_covers_iff twoRepositories nestedReplies (fun _ => 50) [] ⟨"bob", "two", 1, 40, 2, true⟩
    ⟨40, 31, ⟨31, 1⟩, ⟨⟨31, 1⟩, 1⟩, 2, none, "", .none, true⟩ ?_
  decide +kernel

/-- Comment 52 replies to the reply 51 and is not reached. -/
theorem not_resolve_covers :
    ¬ ∀ (w : World) (events : List CommentEvent) (draw : ℕ → Uuid) (plan : List Bool)
      (request : ResolveReviewCommentRequest) (made : ReviewComment),
      ((w.talk events).resolveReviewCommentHandler draw plan request).1 = .ok made →
      ResolvedThread (w.talk events)
        ((w.talk events).resolveReviewCommentHandler draw plan request).2
        request.commentId request.resolved := by
  intro h
  have hcovers := h twoRepositories nestedReplies (fun _ => 50) [] ⟨"bob", "two", 1, 40, 2, true⟩
    ⟨40, 31, ⟨31, 1⟩, ⟨⟨31, 1⟩, 1⟩, 2, none, "", .none, true⟩ (by decide +kernel)
  have hrows : ∀ k p, (((twoRepositories.talk nestedReplies).resolveReviewCommentHandler
      (fun _ => 50) [] ⟨"bob", "two", 1, 40, 2, true⟩).2.comments.get? k).map
        ReviewComment.parentId = some (some p) →
      ((twoRepositories.talk nestedReplies).resolveReviewCommentHandler
        (fun _ => 50) [] ⟨"bob", "two", 1, 40, 2, true⟩).2.Answers k p := by
    intro k p hk
    obtain ⟨row, hrow, hp⟩ := Option.map_eq_some_iff.mp hk
    exact ⟨row, hrow, hp⟩
  have hnested := hcovers.thread 52 ⟨52, 31, ⟨31, 1⟩, ⟨⟨31, 1⟩, 1⟩, 2, some 51, "two", .none, false⟩
    (.tail (.single (hrows 52 51 (by decide +kernel))) (hrows 51 40 (by decide +kernel)))
    (by decide +kernel)
  cases hnested

end Gitdot
