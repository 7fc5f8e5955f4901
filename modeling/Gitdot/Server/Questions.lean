/-
# Ids of answers and comments against the repository in the path

`vote_answer`, `vote_comment` and `create_answer_comment` ask whether the
caller may read the repository at `owner/repo`, and then act on the id that
comes after it, wherever that is: `vote` finds the post by its id alone, and
`create_comment` writes whatever parent it is given, for `core.comments` has no
foreign key there. The question's number in the path is not looked at.

A request stays inside the repository it names (`ActsInside`) exactly if it
fails anyway or the id it comes with is an answer, or a comment, of that very
repository (`question_ids_inside_iff`). So a caller can vote on the answers of a
private repository that they cannot read, through any repository that they can
(`not_question_ids_inside_peek`). `create_question_comment` finds the question by the
path, in the statement that writes the comment.

Key definitions: `QaStore`, `repositoryOf`, `serveQuestion`, `ActsInside`,
`Undisturbed`.
Key theorems: `question_ids_inside_iff`, `not_question_ids_inside_peek`.
-/
import Gitdot.Server.Votes
import Gitdot.Server.Authorization

namespace Gitdot
namespace Questions

open Lib Lib.Tally Keyed Votes

/-- The store, with the posts and the votes on them. -/
structure QaStore where
  world : World
  qa : VoteStore

/-! ### Where a post belongs -/

/-- The repository of a question. -/
def repositoryOfQuestion (posts : Table Post) (id : Uuid) : Option Uuid :=
  match (posts.get? id).map Post.kind with
  | some (.question repositoryId _ _) => some repositoryId
  | _ => none

/-- The repository of an answer's question. -/
def repositoryOfAnswer (posts : Table Post) (id : Uuid) : Option Uuid :=
  match (posts.get? id).map Post.kind with
  | some (.answer questionId) => repositoryOfQuestion posts questionId
  | _ => none

/-- The repository of a comment's question or answer. -/
def repositoryOfComment (posts : Table Post) (id : Uuid) : Option Uuid :=
  match (posts.get? id).map Post.kind with
  | some (.comment parentId) =>
    (repositoryOfQuestion posts parentId).or (repositoryOfAnswer posts parentId)
  | _ => none

/-- The repository that a post belongs to. -/
def repositoryOf (posts : Table Post) (id : Uuid) : Option Uuid :=
  ((repositoryOfQuestion posts id).or (repositoryOfAnswer posts id)).or (repositoryOfComment posts id)

/-! ### The service -/

/-- What a handler answers with. -/
inductive QuestionError where
  | authorization (e : AuthorizationError)
  | input (field reason : String)
  | database (e : VoteError)
  deriving DecidableEq

/-- What a request is told. -/
inductive QuestionResponse where
  | vote (result : VoteResult)
  | comment (id parentId authorId : Uuid) (body : String)
  deriving DecidableEq

/-- The user that a new vote refers to exists. -/
def refers (world : World) : VoteCall → Bool
  | .insertVote userId _ _ => (world.users.get? userId).isSome
  | _ => true

/-- The statements of `vote`, made alone. -/
def execAlone (world : World) (c : VoteCall) (s : VoteStore) :
    Except VoteError (VoteResp c) × VoteStore :=
  match (execVote c s).2 with
  | none => ((execVote c s).1, s)
  | some w =>
    if refers world c then ((execVote c s).1, w.apply s)
    else (.error (.database .foreignKeyViolation), s)

/-- The database of a world. -/
def alone (world : World) : Prog.Handler VoteCall VoteResp VoteError VoteStore where
  exec := execAlone world
  fault _ := .database .connection

/-- The transaction `vote`, rolled back if it fails. -/
def voteAlone (world : World) (op : VoteOp) (s : VoteStore) : Except VoteError VoteResult × VoteStore :=
  match Prog.run (alone world) (vote op) [] s with
  | (.ok result, s') => (.ok result, s')
  | (.error e, _) => (.error e, s)

/-- `create_comment`, under an id drawn at random. -/
def createComment (world : World) (id parentId authorId : Uuid) (body : String) (s : VoteStore) :
    Except VoteError VoteStore :=
  if (world.users.get? authorId).isSome then
    match s.counters.insert? ⟨id, .comment parentId, authorId, body, 0⟩ with
    | some posts => .ok { s with counters := posts }
    | none => .error (.database .uniqueViolation)
  else .error (.database .foreignKeyViolation)

/-! ### The handlers -/

/-- A request, `number` being the question's number in the path. The id of a new
comment comes with the request. -/
inductive QuestionRequest where
  | voteAnswer (owner repo : String) (number : ℤ) (answerId : Uuid) (value : ℤ)
  | voteComment (owner repo : String) (number : ℤ) (commentId : Uuid) (value : ℤ)
  | createAnswerComment (owner repo : String) (number : ℤ) (answerId : Uuid) (body : String)
      (id : Uuid)

/-- The path that the caller is authorized for. -/
def QuestionRequest.path : QuestionRequest → String × String
  | .voteAnswer owner repo _ _ _ => (owner, repo)
  | .voteComment owner repo _ _ _ => (owner, repo)
  | .createAnswerComment owner repo _ _ _ _ => (owner, repo)

/-- `verify_authorized_for_repository` of the handlers. -/
def QuestionRequest.authorize (request : QuestionRequest) (world : World) (user : Uuid) :
    Except AuthorizationError Unit :=
  world.verifyAuthorizedForRepository ⟨some user, request.path.1, request.path.2, .read⟩

/-- `VoteAnswerRequest::new`, `VoteCommentRequest::new`. -/
def checkVote (value : ℤ) : Except QuestionError Unit :=
  if -1 ≤ value ∧ value ≤ 1 then .ok ()
  else .error (.input "vote value" s!"{value}. Must be -1, 0, or 1")

/-- `vote_answer` and `vote_comment`, after the authorization. -/
def voteOn (s : QaStore) (user targetId : Uuid) (targetType : VoteTarget) (value : ℤ) :
    Except QuestionError QuestionResponse × QaStore :=
  match checkVote value with
  | .error e => (.error e, s)
  | .ok () =>
    match voteAlone s.world ⟨user, targetId, targetType, value⟩ s.qa with
    | (.ok result, qa) => (.ok (.vote result), { s with qa })
    | (.error e, qa) => (.error (.database e), { s with qa })

/-- `create_answer_comment`, after the authorization. -/
def commentOn (s : QaStore) (user answerId : Uuid) (body : String) (id : Uuid) :
    Except QuestionError QuestionResponse × QaStore :=
  match createComment s.world id answerId user body s.qa with
  | .ok qa => (.ok (.comment id answerId user body), { s with qa })
  | .error e => (.error (.database e), s)

/-- The service behind a handler. -/
def QuestionRequest.run (s : QaStore) (user : Uuid) :
    QuestionRequest → Except QuestionError QuestionResponse × QaStore
  | .voteAnswer _ _ _ answerId value => voteOn s user answerId .answer value
  | .voteComment _ _ _ commentId value => voteOn s user commentId .comment value
  | .createAnswerComment _ _ _ answerId body id => commentOn s user answerId body id

/-- A handler. -/
def serveQuestion (s : QaStore) (user : Uuid) (request : QuestionRequest) :
    Except QuestionError QuestionResponse × QaStore :=
  match request.authorize s.world user with
  | .error e => (.error (.authorization e), s)
  | .ok () => request.run s user

/-! ### What a vote does -/

/-- Away from the target the stores are the same, and no post has become
another kind of post. -/
structure Elsewhere (targetId : Uuid) (s s' : VoteStore) : Prop where
  votes : ∀ userId id, id ≠ targetId →
    s'.rows.get? (voteKey userId id) = s.rows.get? (voteKey userId id)
  posts : ∀ id, id ≠ targetId → s'.counters.get? id = s.counters.get? id
  kinds : ∀ id, (s'.counters.get? id).map Post.kind = (s.counters.get? id).map Post.kind

theorem Elsewhere.refl (targetId : Uuid) (s : VoteStore) : Elsewhere targetId s s :=
  ⟨fun _ _ _ => rfl, fun _ _ => rfl, fun _ => rfl⟩

/-- The vote finds its target, and its value is one that the table takes. -/
def Lands (world : World) (op : VoteOp) (s : VoteStore) : Prop :=
  (target op.targetType op.targetId s).isSome ∧
    (op.value = 0 ∨ checkValue op.value ∧
      ((s.rows.get? (voteKey op.userId op.targetId)).isSome ∨ (world.users.get? op.userId).isSome))

section Alone

variable {world : World} {op : VoteOp} {s s' : VoteStore} {w : VoteWrite}

/-- A vote on the target is written. -/
theorem elsewhere_change {w : Change Vote (Uuid ×ₗ Uuid)} {userId targetId : Uuid}
    (hw : w.key = voteKey userId targetId) :
    Elsewhere targetId s ((Entry.change w : VoteWrite).apply s) where
  votes u id hid := by
    have hne : voteKey u id ≠ w.key := by
      intro he
      exact hid (Prod.mk.inj (toLex.injective (he.trans hw))).2
    simp only [Entry.apply]
    rw [Change.get?_apply, if_neg hne]
  posts _ _ := rfl
  kinds _ := rfl

/-- The score is moved. -/
theorem elsewhere_count {targetId : Uuid} {c : Post} {n : ℤ} (h : Elsewhere targetId s s')
    (hc : s'.counters.get? targetId = some c) :
    Elsewhere targetId s ((Entry.count { c with upvote := n } : VoteWrite).apply s') := by
  have hid : c.id = targetId := Table.key_of_get? hc
  have hget : ∀ id, ((Entry.count { c with upvote := n } : VoteWrite).apply s').counters.get? id =
      if id = targetId then some { c with upvote := n } else s'.counters.get? id := by
    intro id
    simp only [Entry.apply]
    rw [Table.get?_upsert, ← hid]
    rfl
  refine ⟨h.votes, fun id hne => ?_, fun id => ?_⟩
  · rw [hget, if_neg hne, h.posts id hne]
  · rw [hget, ← h.kinds id]
    split_ifs with hid'
    · rw [hid', hc]
      rfl
    · rfl

theorem target_congr {table : VoteTarget} {targetId id : Uuid} (h : Elsewhere targetId s s') :
    (target table id s').isSome = (target table id s).isSome := by
  have hkind := h.kinds id
  unfold target
  cases hc : s.counters.get? id with
  | none =>
    rw [hc] at hkind
    have hc' : s'.counters.get? id = none := by simpa using hkind
    rw [hc']
  | some c =>
    rw [hc] at hkind
    obtain ⟨c', hc', hkind⟩ := Option.map_eq_some_iff.mp hkind
    rw [hc', Option.filter_some, Option.filter_some, hkind]
    split_ifs <;> rfl

/-- From the write of the vote on: the score is moved if the target is there. -/
theorem wp_voteWritten {targetId : Uuid} {table : VoteTarget} {delta : ℤ} {finalVote : Option ℤ}
    (h : Elsewhere targetId s s') :
    (voteWritten targetId table delta finalVote).wp (alone world) (fun _ _ => False)
      (fun r s'' => r.isOk = (target table targetId s).isSome ∧ Elsewhere targetId s s'') s' := by
  rw [← target_congr h]
  unfold voteWritten statement
  cases hc : target table targetId s' with
  | none =>
    have hx : (alone world).exec (.addUpvote table targetId delta) s' = (.ok none, s') := by
      simp only [alone, execAlone, execVote, hc]
    rw [Prog.wp_perform_bind hx]
    exact ⟨False.elim, rfl, h⟩
  | some c =>
    obtain ⟨hget, -⟩ := Option.filter_eq_some_iff.mp hc
    have hx : (alone world).exec (.addUpvote table targetId delta) s' =
        (.ok (some (c.upvote + delta)),
          (Entry.count { c with upvote := c.upvote + delta } : VoteWrite).apply s') := by
      simp only [alone, execAlone, execVote, hc, refers, ite_true]
    rw [Prog.wp_perform_bind hx]
    exact ⟨False.elim, rfl, elsewhere_count h hget⟩

/-- A vote whose value has been written lands if its target is there. -/
theorem wp_landed {delta : ℤ} {finalVote : Option ℤ} (h : Elsewhere op.targetId s s')
    (hvalue : op.value = 0 ∨ checkValue op.value ∧
      ((s.rows.get? (voteKey op.userId op.targetId)).isSome ∨ (world.users.get? op.userId).isSome)) :
    (voteWritten op.targetId op.targetType delta finalVote).wp (alone world) (fun _ _ => False)
      (fun r s'' => (r.isOk ↔ Lands world op s) ∧ Elsewhere op.targetId s s'') s' := by
  refine Prog.wp_mono (fun r s'' hr => ⟨?_, hr.2⟩) (wp_voteWritten h)
  rw [hr.1]
  exact ⟨fun ht => ⟨ht, hvalue⟩, fun hl => hl.1⟩

/-- A write of the value that fails only if the vote does not land. -/
theorem wp_written {c : VoteCall} {delta : ℤ} {finalVote : Option ℤ}
    (hx : (∃ r s', (alone world).exec c s = (.ok r, s') ∧ Elsewhere op.targetId s s' ∧
        (op.value = 0 ∨ checkValue op.value ∧
          ((s.rows.get? (voteKey op.userId op.targetId)).isSome ∨
            (world.users.get? op.userId).isSome))) ∨
      ∃ e, (alone world).exec c s = (.error e, s) ∧ ¬ Lands world op s) :
    (statement c >>= fun _ => voteWritten op.targetId op.targetType delta finalVote).wp (alone world)
      (fun _ _ => False) (fun r s' => (r.isOk ↔ Lands world op s) ∧ Elsewhere op.targetId s s') s := by
  unfold statement
  rcases hx with ⟨r, s', hx, hsame, hvalue⟩ | ⟨e, hx, hnot⟩
  · rw [Prog.wp_perform_bind hx]
    exact ⟨False.elim, wp_landed hsame hvalue⟩
  · rw [Prog.wp_perform_bind_error hx]
    exact ⟨False.elim, ⟨(fun hok => by cases hok), fun hl => absurd hl hnot⟩,
      Elsewhere.refl op.targetId s⟩

theorem deleteVote_alone (world : World) (userId targetId : Uuid) (s : VoteStore) :
    ∃ s', (alone world).exec (.deleteVote userId targetId) s = (.ok (), s') ∧
      Elsewhere targetId s s' := by
  cases ha : s.rows.get? (voteKey userId targetId) with
  | none =>
    refine ⟨s, ?_, Elsewhere.refl targetId s⟩
    simp only [alone, execAlone, execVote, ha]
  | some a =>
    refine ⟨(Entry.change (.drop (voteKey userId targetId)) : VoteWrite).apply s, ?_,
      elsewhere_change rfl⟩
    simp only [alone, execAlone, execVote, ha, refers, ite_true]

/-- An update of a vote that is there fails on its value alone. -/
theorem updateVote_alone (world : World) {userId targetId : Uuid} (value : ℤ) {s : VoteStore}
    (hthere : (s.rows.get? (voteKey userId targetId)).isSome) :
    (checkValue value ∧ ∃ s', (alone world).exec (.updateVote userId targetId value) s = (.ok (), s') ∧
      Elsewhere targetId s s') ∨
    (¬ checkValue value ∧ ∃ e, (alone world).exec (.updateVote userId targetId value) s = (.error e, s)) := by
  obtain ⟨a, ha⟩ := Option.isSome_iff_exists.mp hthere
  have hkey : voteKey a.userId a.targetId = voteKey userId targetId := Table.key_of_get? ha
  by_cases hcheck : checkValue value
  · refine .inl ⟨hcheck, (Entry.change (.put { a with value := value }) : VoteWrite).apply s, ?_,
      elsewhere_change hkey⟩
    simp only [alone, execAlone, execVote, ha, refers, if_pos hcheck, ite_true]
  · refine .inr ⟨hcheck, .checkViolation, ?_⟩
    simp only [alone, execAlone, execVote, ha, if_neg hcheck]

/-- An insert of a vote that is not there fails on its value or its user. -/
theorem insertVote_alone (world : World) {userId targetId : Uuid} (value : ℤ) {s : VoteStore}
    (hnone : s.rows.get? (voteKey userId targetId) = none) :
    ((checkValue value ∧ (world.users.get? userId).isSome) ∧
      ∃ s', (alone world).exec (.insertVote userId targetId value) s = (.ok (), s') ∧
        Elsewhere targetId s s') ∨
    (¬ (checkValue value ∧ (world.users.get? userId).isSome) ∧
      ∃ e, (alone world).exec (.insertVote userId targetId value) s = (.error e, s)) := by
  by_cases hcheck : checkValue value
  · by_cases huser : (world.users.get? userId).isSome = true
    · refine .inl ⟨⟨hcheck, huser⟩,
        (Entry.change (.put ⟨userId, targetId, value⟩) : VoteWrite).apply s, ?_, elsewhere_change rfl⟩
      simp only [alone, execAlone, execVote, hnone, refers, if_pos hcheck, if_pos huser]
    · refine .inr ⟨fun hl => huser hl.2, .database .foreignKeyViolation, ?_⟩
      simp only [alone, execAlone, execVote, hnone, refers, if_pos hcheck, if_neg huser]
  · refine .inr ⟨fun hl => hcheck hl.1, .checkViolation, ?_⟩
    simp only [alone, execAlone, execVote, if_neg hcheck]

/-- **A vote alone.** It succeeds exactly if it lands, and touches nothing away
from its target. -/
theorem wp_vote (world : World) (op : VoteOp) (s : VoteStore) : (vote op).wp (alone world) (fun _ _ => False)
    (fun r s' => (r.isOk ↔ Lands world op s) ∧ Elsewhere op.targetId s s') s := by
  have hread : (alone world).exec (.selectVote op.userId op.targetId) s =
      (.ok ((s.rows.get? (voteKey op.userId op.targetId)).map Vote.value), s) := rfl
  unfold vote
  rw [statement, Prog.wp_perform_bind hread]
  refine ⟨False.elim, ?_⟩
  unfold voteRead
  by_cases hzero : op.value = 0
  · rw [if_pos hzero]
    obtain ⟨s', hx, hsame⟩ := deleteVote_alone world op.userId op.targetId s
    exact wp_written (.inl ⟨_, s', hx, hsame, .inl hzero⟩)
  · rw [if_neg hzero]
    cases ha : s.rows.get? (voteKey op.userId op.targetId) with
    | some a =>
      rw [if_pos (by rfl)]
      have hthere : (s.rows.get? (voteKey op.userId op.targetId)).isSome := by rw [ha]; rfl
      obtain ⟨hcheck, s', hx, hsame⟩ | ⟨hcheck, e, hx⟩ := updateVote_alone world op.value hthere
      · exact wp_written (.inl ⟨_, s', hx, hsame, .inr ⟨hcheck, .inl hthere⟩⟩)
      · exact wp_written (.inr ⟨e, hx, fun hl => hl.2.elim hzero fun hv => hcheck hv.1⟩)
    | none =>
      rw [if_neg (by simp)]
      obtain ⟨⟨hcheck, huser⟩, s', hx, hsame⟩ | ⟨hfails, e, hx⟩ := insertVote_alone world op.value ha
      · exact wp_written (.inl ⟨_, s', hx, hsame, .inr ⟨hcheck, .inr huser⟩⟩)
      · refine wp_written (.inr ⟨e, hx, fun hl => hl.2.elim hzero fun hv => hfails ⟨hv.1, ?_⟩⟩)
        rw [ha] at hv
        exact hv.2.resolve_left (by simp)

theorem voteAlone_isOk : (voteAlone world op s).1.isOk ↔ Lands world op s := by
  have hwp := Prog.wp_noFault.mp (wp_vote world op s)
  rw [← hwp.1]
  unfold voteAlone
  generalize Prog.run (alone world) (vote op) [] s = out
  obtain ⟨r | r, s'⟩ := out <;> rfl

theorem voteAlone_elsewhere (world : World) (op : VoteOp) (s : VoteStore) : Elsewhere op.targetId s (voteAlone world op s).2 := by
  have hwp := Prog.wp_noFault.mp (wp_vote world op s)
  have helse := hwp.2
  unfold voteAlone
  generalize Prog.run (alone world) (vote op) [] s = out at helse
  obtain ⟨r | r, s'⟩ := out
  · exact .refl _ _
  · exact helse

theorem voteAlone_error {e : VoteError} (h : (voteAlone world op s).1 = .error e) :
    (voteAlone world op s).2 = s := by
  revert h
  unfold voteAlone
  generalize Prog.run (alone world) (vote op) [] s = out
  obtain ⟨r | r, s'⟩ := out
  · exact fun _ => rfl
  · exact nofun

end Alone

/-! ### Inside the repository of the path -/

/-- The user may read the repository. -/
def MayRead (world : World) (repository : Repository) (user : Uuid) : Prop :=
  repository.isPublic = true ∨
    if repository.isOwnedByUser then repository.ownerId = user
    else world.isMember repository.ownerId user = true

instance (world : World) (repository : Repository) (user : Uuid) :
    Decidable (MayRead world repository user) :=
  inferInstanceAs (Decidable (_ ∨ _))

/-- The repository of the answer or comment that the request names. -/
def QuestionRequest.repositoryOf (posts : Table Post) : QuestionRequest → Option Uuid
  | .voteAnswer _ _ _ answerId _ => repositoryOfAnswer posts answerId
  | .voteComment _ _ _ commentId _ => repositoryOfComment posts commentId
  | .createAnswerComment _ _ _ answerId _ _ => repositoryOfAnswer posts answerId

/-- What the request names is of the repository at the path. -/
def Agrees (s : QaStore) (request : QuestionRequest) : Prop :=
  ∃ repository, s.world.getRepository request.path.1 request.path.2 = some repository ∧
    request.repositoryOf s.qa.counters = some repository.id

/-- The posts of the repository, and the votes on them, are the same. -/
structure Undisturbed (repositoryId : Uuid) (s s' : VoteStore) : Prop where
  posts : ∀ id, repositoryOf s.counters id = some repositoryId →
    s'.counters.get? id = s.counters.get? id
  votes : ∀ id, repositoryOf s.counters id = some repositoryId → ∀ userId,
    s'.rows.get? (voteKey userId id) = s.rows.get? (voteKey userId id)
  noneNew : ∀ id, repositoryOf s'.counters id = some repositoryId →
    repositoryOf s.counters id = some repositoryId

/-- **The claim of a request.** If it succeeds, what it names is of the
repository at the path; and repositories that the caller may not read are left
as they are. -/
def ActsInside (s : QaStore) (user : Uuid) (request : QuestionRequest) : Prop :=
  (∀ response s', serveQuestion s user request = (.ok response, s') → Agrees s request) ∧
    ∀ repository ∈ s.world.repositories.rows, ¬ MayRead s.world repository user →
      Undisturbed repository.id s.qa (serveQuestion s user request).2.qa

/-- The service does not refuse the request. -/
def Takes (s : QaStore) (user : Uuid) : QuestionRequest → Prop
  | .voteAnswer _ _ _ answerId value =>
    (-1 ≤ value ∧ value ≤ 1) ∧ Lands s.world ⟨user, answerId, .answer, value⟩ s.qa
  | .voteComment _ _ _ commentId value =>
    (-1 ≤ value ∧ value ≤ 1) ∧ Lands s.world ⟨user, commentId, .comment, value⟩ s.qa
  | .createAnswerComment _ _ _ _ _ id =>
    (s.world.users.get? user).isSome ∧ s.qa.counters.get? id = none

section Inside

variable {s : QaStore} {user : Uuid} {request : QuestionRequest}

theorem authorize_mayRead (h : request.authorize s.world user = .ok ()) :
    ∃ repository, s.world.getRepository request.path.1 request.path.2 = some repository ∧
      MayRead s.world repository user := by
  unfold QuestionRequest.authorize World.verifyAuthorizedForRepository at h
  cases hr : s.world.getRepository request.path.1 request.path.2 with
  | none =>
    rw [hr] at h
    cases h
  | some repository =>
    rw [hr] at h
    refine ⟨repository, rfl, ?_⟩
    unfold MayRead
    by_cases hpublic : repository.isPublic = true
    · exact .inl hpublic
    · right
      simp only [World.authorizeRepository, hpublic, reduceCtorEq, and_false, ite_false] at h
      split_ifs at h ⊢ with howned howner
      · exact not_not.mp howner
      · assumption

theorem voteOn_isOk {targetId : Uuid} {table : VoteTarget} {value : ℤ} :
    (voteOn s user targetId table value).1.isOk ↔
      (-1 ≤ value ∧ value ≤ 1) ∧ Lands s.world ⟨user, targetId, table, value⟩ s.qa := by
  rw [← voteAlone_isOk]
  unfold voteOn checkVote
  by_cases hvalue : -1 ≤ value ∧ value ≤ 1
  · rw [if_pos hvalue]
    dsimp only
    generalize voteAlone s.world ⟨user, targetId, table, value⟩ s.qa = out
    obtain ⟨e | r, qa⟩ := out
    · exact ⟨nofun, fun h => nomatch h.2⟩
    · exact ⟨fun _ => ⟨hvalue, rfl⟩, fun _ => rfl⟩
  · rw [if_neg hvalue]
    exact ⟨nofun, fun h => absurd h.1 hvalue⟩

theorem voteOn_elsewhere {targetId : Uuid} {table : VoteTarget} {value : ℤ} :
    Elsewhere targetId s.qa (voteOn s user targetId table value).2.qa := by
  have helse := voteAlone_elsewhere s.world ⟨user, targetId, table, value⟩ s.qa
  unfold voteOn checkVote
  split_ifs
  · dsimp only
    generalize voteAlone s.world ⟨user, targetId, table, value⟩ s.qa = out at helse
    obtain ⟨e | r, qa⟩ := out
    · exact helse
    · exact helse
  · exact .refl _ _

theorem commentOn_isOk {answerId id : Uuid} {body : String} :
    (commentOn s user answerId body id).1.isOk ↔
      (s.world.users.get? user).isSome ∧ s.qa.counters.get? id = none := by
  unfold commentOn createComment
  by_cases huser : (s.world.users.get? user).isSome = true
  · rw [if_pos huser]
    cases hins : s.qa.counters.insert? ⟨id, .comment answerId, user, body, 0⟩ with
    | none =>
      obtain ⟨b, hb⟩ := Table.insert?_eq_none_iff.mp hins
      have hb : s.qa.counters.get? id = some b := hb
      refine ⟨nofun, fun h => ?_⟩
      rw [hb] at h
      cases h.2
    | some posts => exact ⟨fun _ => ⟨huser, Table.get?_none_of_insert? hins⟩, fun _ => rfl⟩
  · rw [if_neg huser]
    exact ⟨nofun, fun h => absurd h.1 huser⟩

/-- The service behind a handler takes a request or refuses it. -/
theorem run_isOk : (request.run s user).1.isOk ↔ Takes s user request := by
  cases request with
  | voteAnswer owner repo number answerId value => exact voteOn_isOk
  | voteComment owner repo number commentId value => exact voteOn_isOk
  | createAnswerComment owner repo number answerId body id => exact commentOn_isOk

theorem serve_isOk : (serveQuestion s user request).1.isOk ↔
    request.authorize s.world user = .ok () ∧ Takes s user request := by
  rw [← run_isOk]
  unfold serveQuestion
  cases hauth : request.authorize s.world user with
  | error e => exact ⟨nofun, fun h => nomatch h.1⟩
  | ok a => exact ⟨fun h => ⟨rfl, h⟩, fun h => h.2⟩

/-! ### What is left as it is -/

variable {qa qa' : VoteStore} {repositoryId : Uuid}

theorem Undisturbed.refl (repositoryId : Uuid) (qa : VoteStore) : Undisturbed repositoryId qa qa :=
  ⟨fun _ _ => rfl, fun _ _ _ => rfl, fun _ h => h⟩

theorem repositoryOfQuestion_of_answer {posts : Table Post} {id : Uuid}
    (h : repositoryOfAnswer posts id ≠ none) : repositoryOfQuestion posts id = none := by
  unfold repositoryOfAnswer at h
  unfold repositoryOfQuestion
  split at h
  · next hkind => rw [hkind]
  · exact absurd rfl h

theorem repositoryOf_of_answer {posts : Table Post} {id : Uuid}
    (h : repositoryOfAnswer posts id = some repositoryId) :
    repositoryOf posts id = some repositoryId := by
  have hquestion : repositoryOfQuestion posts id = none :=
    repositoryOfQuestion_of_answer (by rw [h]; exact nofun)
  rw [repositoryOf, hquestion, Option.none_or, h, Option.some_or]

theorem repositoryOf_of_comment {posts : Table Post} {id : Uuid}
    (h : repositoryOfComment posts id = some repositoryId) :
    repositoryOf posts id = some repositoryId := by
  have hothers : repositoryOfQuestion posts id = none ∧ repositoryOfAnswer posts id = none := by
    unfold repositoryOfComment at h
    unfold repositoryOfQuestion repositoryOfAnswer
    split at h
    · next hkind =>
      rw [hkind]
      exact ⟨rfl, rfl⟩
    · cases h
  rw [repositoryOf, hothers.1, hothers.2, Option.none_or, Option.none_or, h]

/-- Where a post belongs is read off the kinds of the posts. -/
theorem repositoryOf_congr {posts posts' : Table Post}
    (h : ∀ id, (posts'.get? id).map Post.kind = (posts.get? id).map Post.kind) (id : Uuid) :
    repositoryOf posts' id = repositoryOf posts id := by
  have hquestion : ∀ id, repositoryOfQuestion posts' id = repositoryOfQuestion posts id := by
    intro id
    unfold repositoryOfQuestion
    rw [h id]
  have hanswer : ∀ id, repositoryOfAnswer posts' id = repositoryOfAnswer posts id := by
    intro id
    unfold repositoryOfAnswer
    rw [h id]
    simp only [hquestion]
  unfold repositoryOf repositoryOfComment
  rw [h id]
  simp only [hquestion, hanswer]

/-- A vote disturbs the repository of its target only. -/
theorem undisturbed_of_elsewhere {targetId : Uuid} (h : Elsewhere targetId qa qa')
    (ht : repositoryOf qa.counters targetId ≠ some repositoryId) :
    Undisturbed repositoryId qa qa' := by
  have hne : ∀ id, repositoryOf qa.counters id = some repositoryId → id ≠ targetId := by
    rintro id hid rfl
    exact ht hid
  exact ⟨fun id hid => h.posts id (hne id hid), fun id hid userId => h.votes userId id (hne id hid),
    fun id hid => repositoryOf_congr h.kinds id ▸ hid⟩

/-- A comment disturbs the repository of its answer only. -/
theorem undisturbed_of_comment {posts : Table Post} {id answerId authorId : Uuid} {body : String}
    (hins : qa.counters.insert? ⟨id, .comment answerId, authorId, body, 0⟩ = some posts)
    (ht : repositoryOfAnswer qa.counters answerId ≠ none)
    (hne : repositoryOfAnswer qa.counters answerId ≠ some repositoryId) :
    Undisturbed repositoryId qa { qa with counters := posts } := by
  have hnew : qa.counters.get? id = none := Table.get?_none_of_insert? hins
  have hget : ∀ x, posts.get? x = if x = id then some ⟨id, .comment answerId, authorId, body, 0⟩
      else qa.counters.get? x := Table.get?_insert? hins
  -- neither a question nor an answer is new
  have hquestion : ∀ x, repositoryOfQuestion posts x = repositoryOfQuestion qa.counters x := by
    intro x
    unfold repositoryOfQuestion
    rw [hget]
    split_ifs with hx
    · rw [hx, hnew]
      rfl
    · rfl
  have hanswer : ∀ x, repositoryOfAnswer posts x = repositoryOfAnswer qa.counters x := by
    intro x
    unfold repositoryOfAnswer
    rw [hget]
    split_ifs with hx
    · rw [hx, hnew]
      rfl
    · simp only [hquestion]
  refine ⟨fun x hx => ?_, fun _ _ _ => rfl, fun x hx => ?_⟩
  · rw [hget, if_neg]
    rintro rfl
    unfold repositoryOf repositoryOfQuestion repositoryOfAnswer repositoryOfComment at hx
    rw [hnew] at hx
    cases hx
  · unfold repositoryOf at hx ⊢
    rw [hquestion, hanswer] at hx
    by_cases hxid : x = id
    · have hcomment : repositoryOfComment posts id = repositoryOfAnswer qa.counters answerId := by
        unfold repositoryOfComment
        rw [hget, if_pos rfl]
        simp only [Option.map_some, hquestion, hanswer]
        rw [repositoryOfQuestion_of_answer ht, Option.none_or]
      have hnone : repositoryOfQuestion qa.counters id = none ∧
          repositoryOfAnswer qa.counters id = none := by
        unfold repositoryOfQuestion repositoryOfAnswer
        rw [hnew]
        exact ⟨rfl, rfl⟩
      rw [hxid, hnone.1, hnone.2, Option.none_or, Option.none_or, hcomment] at hx
      exact absurd hx hne
    · unfold repositoryOfComment at hx ⊢
      rw [hget, if_neg hxid] at hx
      simp only [hquestion, hanswer] at hx
      exact hx

/-- A request that names what is of the repository at its path leaves the other
repositories as they are. -/
theorem undisturbed_of_agrees (h : request.repositoryOf s.qa.counters = some repositoryId)
    {other : Uuid} (hne : other ≠ repositoryId) :
    Undisturbed other s.qa (request.run s user).2.qa := by
  have hother : some repositoryId ≠ some other := fun he => hne (Option.some.inj he).symm
  cases request with
  | voteAnswer owner repo number answerId value =>
    refine undisturbed_of_elsewhere voteOn_elsewhere ?_
    rw [repositoryOf_of_answer h]
    exact hother
  | voteComment owner repo number commentId value =>
    refine undisturbed_of_elsewhere voteOn_elsewhere ?_
    rw [repositoryOf_of_comment h]
    exact hother
  | createAnswerComment owner repo number answerId body id =>
    have h : repositoryOfAnswer s.qa.counters answerId = some repositoryId := h
    simp only [QuestionRequest.run, commentOn, createComment]
    split_ifs
    · cases hins : s.qa.counters.insert? ⟨id, .comment answerId, user, body, 0⟩ with
      | none => exact .refl _ _
      | some posts =>
        refine undisturbed_of_comment hins ?_ ?_
        · rw [h]
          exact nofun
        · rw [h]
          exact hother
    · exact .refl _ _

theorem voteOn_error {targetId : Uuid} {table : VoteTarget} {value : ℤ} {e : QuestionError}
    (h : (voteOn s user targetId table value).1 = .error e) :
    (voteOn s user targetId table value).2.qa = s.qa := by
  have herror := @voteAlone_error s.world ⟨user, targetId, table, value⟩ s.qa
  unfold voteOn checkVote at h ⊢
  split_ifs at h ⊢
  · dsimp only at h ⊢
    generalize voteAlone s.world ⟨user, targetId, table, value⟩ s.qa = out at herror h
    obtain ⟨e' | r, qa⟩ := out
    · exact herror rfl
    · cases h
  · rfl

/-- A request that fails changes nothing. -/
theorem serve_error {e : QuestionError} (h : (serveQuestion s user request).1 = .error e) :
    (serveQuestion s user request).2.qa = s.qa := by
  unfold serveQuestion at h ⊢
  cases hauth : request.authorize s.world user with
  | error e => rfl
  | ok a =>
    rw [hauth] at h
    cases request with
    | voteAnswer owner repo number answerId value => exact voteOn_error h
    | voteComment owner repo number commentId value => exact voteOn_error h
    | createAnswerComment owner repo number answerId body id =>
      simp only [QuestionRequest.run, commentOn] at h ⊢
      cases hc : createComment s.world id answerId user body s.qa with
      | error e => rfl
      | ok qa =>
        rw [hc] at h
        cases h

/-- **The condition.** The request is refused, by the authorization or by the
service, or the id it comes with is of the repository at its path. -/
def Meets (s : QaStore) (user : Uuid) (request : QuestionRequest) : Prop :=
  request.authorize s.world user ≠ .ok () ∨ ¬ Takes s user request ∨ Agrees s request

/-- **Ids of answers and comments.** For every store, caller and request: what
the request acts on is of the repository at its path, and repositories the
caller may not read are left alone, exactly under the condition. -/
theorem question_ids_inside_iff (s : QaStore) (user : Uuid) (request : QuestionRequest) :
    ActsInside s user request ↔ Meets s user request := by
  constructor
  · intro h
    by_cases hok : request.authorize s.world user = .ok () ∧ Takes s user request
    · have hisOk := serve_isOk.mpr hok
      cases hserve : serveQuestion s user request with
      | mk out s' =>
        rw [hserve] at hisOk
        cases out with
        | error e => cases hisOk
        | ok response => exact .inr (.inr (h.1 response s' hserve))
    · rcases not_and_or.mp hok with hauth | htakes
      · exact .inl hauth
      · exact .inr (.inl htakes)
  · intro h
    have hagrees : (serveQuestion s user request).1.isOk = true → Agrees s request := by
      intro hisOk
      obtain ⟨hauth, htakes⟩ := serve_isOk.mp hisOk
      rcases h with h | h | h
      · exact absurd hauth h
      · exact absurd htakes h
      · exact h
    refine ⟨fun response s' hserve => hagrees (by rw [hserve]; rfl), ?_⟩
    intro repository hmem hread
    cases hout : (serveQuestion s user request).1 with
    | error e =>
      rw [serve_error hout]
      exact .refl _ _
    | ok response =>
      have hisOk : (serveQuestion s user request).1.isOk = true := by rw [hout]; rfl
      obtain ⟨found, hfound, hof⟩ := hagrees hisOk
      obtain ⟨hauth, -⟩ := serve_isOk.mp hisOk
      obtain ⟨found', hfound', hmay⟩ := authorize_mayRead hauth
      obtain rfl := Option.some.inj (hfound.symm.trans hfound')
      -- the caller may read the one and not the other, so their ids differ
      have hne : repository.id ≠ found.id := by
        intro hid
        have hfoundMem := (World.mem_repositoriesAt.mp (World.getRepository_mem hfound)).1
        have hsame : repository = found := Option.some.inj
          ((Table.get?_key hmem).symm.trans ((congrArg _ hid).trans (Table.get?_key hfoundMem)))
        exact hread (hsame ▸ hmay)
      have hrun : (serveQuestion s user request).2 = (request.run s user).2 := by
        unfold serveQuestion
        rw [hauth]
      rw [hrun]
      exact undisturbed_of_agrees hof hne

end Inside

/-! ### A private repository

User 1 owns the public `alice/site`, user 2 the private `bob/plans`, with a
question and the answer 40 to it. -/

def peekWorld : World where
  users := (Table.empty.upsert ⟨1, "alice"⟩).upsert ⟨2, "bob"⟩
  organizations := .empty
  members := []
  repositories := (Table.empty.upsert ⟨5, "site", 1, .user, .publicRepo, false, .empty⟩).upsert
    ⟨6, "plans", 2, .user, .privateRepo, false, .empty⟩
  comments := .empty
  verdicts := []
  disk _ _ := none

def peekStore : QaStore :=
  ⟨peekWorld, ⟨.empty, (Table.empty.upsert ⟨30, .question 6 1 "when?", 2, "", 0⟩).upsert
    ⟨40, .answer 30, 2, "", 0⟩⟩⟩

/-- User 1 votes on the answer through `alice/site`. -/
def peek : QuestionRequest := .voteAnswer "alice" "site" 1 40 1

theorem not_question_ids_inside_peek : ¬ ActsInside peekStore 1 peek := by
  rintro ⟨h, -⟩
  have hisOk : (serveQuestion peekStore 1 peek).1.isOk = true := by decide +kernel
  have hsite : (peekStore.world.getRepository "alice" "site").map Repository.id = some 5 := by
    decide +kernel
  have hplans : peek.repositoryOf peekStore.qa.counters = some 6 := by decide +kernel
  cases hserve : serveQuestion peekStore 1 peek with
  | mk out s' =>
    rw [hserve] at hisOk
    cases out with
    | error e => cases hisOk
    | ok response =>
      obtain ⟨repository, hfound, hof⟩ := h response s' hserve
      have hfound : peekStore.world.getRepository "alice" "site" = some repository := hfound
      rw [hfound] at hsite
      have hid : some repository.id = some 5 := hsite
      rw [hplans, hid] at hof
      exact absurd hof (by decide)

example : ((serveQuestion peekStore 1 peek).2.qa.counters.get? 40).map Post.upvote = some 1 := by
  decide +kernel

end Questions
end Gitdot
