/-
# Votes

`vote` is one transaction: it reads the user's vote on the target, deletes,
updates or inserts it, and moves the target's `upvote` by the difference
between the new value and the one it read. The row it writes need not be as it
was read: another transaction of the same user may have committed in between.
The delete and the update find the row as it then is, and the difference is the
old one.

The score stays the sum of the votes in every run in which each delete and
update finds the value that was read, or leaves as much of the vote as the
difference counts for (`AsRead`, `score_is_votes`). A user who takes back a vote
twice at once takes it off the score twice (`not_score_is_votes_takenTwice`).

Questions, answers and comments have their ids from one source of random ids,
so they are one table here, in which a row says what it is.

Key definitions: `vote`, `voteEngine`, `AsRead`, `Accounted`.
Key theorems: `voteRules`, `score_is_votes`, `not_score_is_votes_takenTwice`.
-/
import Gitdot.Lib.Tally
import Gitdot.Lib.Transaction
import Gitdot.Server.World
import Mathlib.Data.Prod.Lex

namespace Gitdot
namespace Votes

open Lib Lib.Tally Lib.Transaction Keyed

/-- A row of `core.votes`. -/
structure Vote where
  userId : Uuid
  targetId : Uuid
  value : ℤ
  deriving DecidableEq

/-- `PRIMARY KEY(user_id, target_id)`. -/
def voteKey (userId targetId : Uuid) : Uuid ×ₗ Uuid := toLex (userId, targetId)

instance : Keyed Vote (Uuid ×ₗ Uuid) := ⟨fun a => voteKey a.userId a.targetId⟩

/-- `VoteTarget`. -/
inductive VoteTarget where
  | question
  | answer
  | comment
  deriving DecidableEq

/-- What a post is: the columns of `core.questions`, `core.answers` and
`core.comments` that are not common to the three. -/
inductive PostKind where
  | question (repositoryId : Uuid) (number : ℤ) (title : String)
  | answer (questionId : Uuid)
  | comment (parentId : Uuid)
  deriving DecidableEq

/-- A row of `core.questions`, `core.answers` or `core.comments`. -/
structure Post where
  id : Uuid
  kind : PostKind
  authorId : Uuid
  body : String
  upvote : ℤ
  deriving DecidableEq

instance : Keyed Post Uuid := ⟨Post.id⟩

/-- The table that a post is in. -/
def PostKind.table : PostKind → VoteTarget
  | .question _ _ _ => .question
  | .answer _ => .answer
  | .comment _ => .comment

abbrev VoteStore := Ledger Vote Post

/-- The statements of a transaction. -/
inductive VoteCall where
  | selectVote (userId targetId : Uuid)
  | deleteVote (userId targetId : Uuid)
  | updateVote (userId targetId : Uuid) (value : ℤ)
  | insertVote (userId targetId : Uuid) (value : ℤ)
  | addUpvote (table : VoteTarget) (id : Uuid) (delta : ℤ)

/-- What a statement returns. -/
def VoteResp : VoteCall → Type
  | .selectVote _ _ => Option ℤ
  | .deleteVote _ _ => Unit
  | .updateVote _ _ _ => Unit
  | .insertVote _ _ _ => Unit
  | .addUpvote _ _ _ => Option ℤ

/-- What a call of `vote` fails with. -/
inductive VoteError where
  | database (e : DatabaseError)
  | checkViolation
  deriving DecidableEq

abbrev VoteWrite := Entry Vote Post (Uuid ×ₗ Uuid)

abbrev VotePlace := Place (Uuid ×ₗ Uuid) Uuid

/-- `CHECK (value IN (-1, 1))`. -/
def checkValue (value : ℤ) : Prop := value = -1 ∨ value = 1

instance (value : ℤ) : Decidable (checkValue value) := inferInstanceAs (Decidable (_ ∨ _))

/-- The post of this id in the table. -/
def target (table : VoteTarget) (id : Uuid) (s : VoteStore) : Option Post :=
  (s.counters.get? id).filter fun c => decide (c.kind.table = table)

/-- A statement. -/
def execVote : (c : VoteCall) → VoteStore → Except VoteError (VoteResp c) × Option VoteWrite
  | .selectVote userId targetId, s =>
    (.ok ((s.rows.get? (voteKey userId targetId)).map Vote.value : Option ℤ), none)
  | .deleteVote userId targetId, s =>
    match s.rows.get? (voteKey userId targetId) with
    | some _ => (.ok (), some (.change (.drop (voteKey userId targetId))))
    | none => (.ok (), none)
  | .updateVote userId targetId value, s =>
    match s.rows.get? (voteKey userId targetId) with
    | some a =>
      if checkValue value then (.ok (), some (.change (.put { a with value })))
      else (.error .checkViolation, none)
    | none => (.ok (), none)
  | .insertVote userId targetId value, s =>
    if checkValue value then
      match s.rows.get? (voteKey userId targetId) with
      | some _ => (.error (.database .uniqueViolation), none)
      | none => (.ok (), some (.change (.put ⟨userId, targetId, value⟩)))
    else (.error .checkViolation, none)
  | .addUpvote table id delta, s =>
    match target table id s with
    | some c => (.ok (some (c.upvote + delta) : Option ℤ),
        some (.count { c with upvote := c.upvote + delta }))
    | none => (.ok (none : Option ℤ), none)

/-- The row a statement waits for. The select waits for none, a delete or an
update for the row it finds, an insert for any row of its key. -/
def waitsVote : VoteCall → VoteStore → Option VotePlace
  | .selectVote _ _, _ => none
  | .deleteVote userId targetId, s => (s.rows.get? (voteKey userId targetId)).map fun a => .row (key a)
  | .updateVote userId targetId _, s => (s.rows.get? (voteKey userId targetId)).map fun a => .row (key a)
  | .insertVote userId targetId value, _ =>
    if checkValue value then some (.row (voteKey userId targetId)) else none
  | .addUpvote table id _, s => (target table id s).map fun c => .counter (key c)

theorem waits_execVote (c : VoteCall) (s : VoteStore) (w : VoteWrite)
    (h : (execVote c s).2 = some w) : waitsVote c s = some w.place := by
  cases c with
  | selectVote userId targetId => cases h
  | deleteVote userId targetId =>
    simp only [execVote] at h
    simp only [waitsVote]
    split at h
    · next a ha =>
      rw [ha, ← Option.some.inj h, Option.map_some, Table.key_of_get? ha]
      rfl
    · cases h
  | updateVote userId targetId value =>
    simp only [execVote] at h
    simp only [waitsVote]
    split at h
    · next a ha =>
      split_ifs at h
      rw [ha, ← Option.some.inj h]
      rfl
    · cases h
  | insertVote userId targetId value =>
    simp only [execVote] at h
    simp only [waitsVote]
    split_ifs at h ⊢ with hvalue
    split at h
    · cases h
    · rw [← Option.some.inj h]
      rfl
  | addUpvote table id delta =>
    simp only [execVote] at h
    simp only [waitsVote]
    split at h
    · next c hc =>
      rw [hc, ← Option.some.inj h]
      rfl
    · cases h

/-- The tables as a database. -/
def voteEngine : Engine VoteStore VoteWrite VotePlace (Cell Vote Post) VoteCall VoteResp VoteError where
  apply := Entry.apply
  key := Entry.place
  row := Ledger.cell
  waits := waitsVote
  exec := execVote
  row_apply := cell_apply
  waits_exec := waits_execVote

/-! ### The transaction -/

/-- `VoteResult`. -/
structure VoteResult where
  targetId : Uuid
  newScore : ℤ
  userVote : Option ℤ
  deriving DecidableEq

abbrev VoteProg := Prog VoteCall VoteResp VoteError VoteError

/-- One statement; its failure is returned. -/
def statement (c : VoteCall) : VoteProg (VoteResp c) := Prog.perform (fun e => e) c

/-- `vote`, from the write of the vote on. -/
def voteWritten (targetId : Uuid) (targetType : VoteTarget) (voteDelta : ℤ) (finalVote : Option ℤ) :
    VoteProg VoteResult := do
  let newScore ← statement (.addUpvote targetType targetId voteDelta)
  match newScore with
  | some newScore => return ⟨targetId, newScore, finalVote⟩
  | none => .fail (.database .rowNotFound)

/-- `vote`, from the vote it has read on. -/
def voteRead (userId targetId : Uuid) (targetType : VoteTarget) (value : ℤ)
    (existingVote : Option ℤ) : VoteProg VoteResult :=
  let oldValue := existingVote.getD 0
  let voteDelta := value - oldValue
  if value = 0 then do
    let _ ← statement (.deleteVote userId targetId)
    voteWritten targetId targetType voteDelta none
  else if existingVote.isSome then do
    let _ ← statement (.updateVote userId targetId value)
    voteWritten targetId targetType voteDelta (some value)
  else do
    let _ ← statement (.insertVote userId targetId value)
    voteWritten targetId targetType voteDelta (some value)

/-- A call of `vote`. -/
structure VoteOp where
  userId : Uuid
  targetId : Uuid
  targetType : VoteTarget
  value : ℤ

/-- `vote`. -/
def vote (op : VoteOp) : VoteProg VoteResult := do
  let existingVote ← statement (.selectVote op.userId op.targetId)
  voteRead op.userId op.targetId op.targetType op.value existingVote

abbrev VoteDb := Db VoteOp VoteCall VoteResp VoteError VoteError VoteResult VoteStore VoteWrite

abbrev VoteSession := Session VoteOp VoteCall VoteResp VoteError VoteError VoteResult VoteWrite

/-! ### Votes and scores -/

/-- A vote counts for its value. -/
def voteScale : Scale Vote Post Uuid := ⟨Vote.targetId, Vote.value, Post.upvote⟩

/-- The values of the votes on a target. -/
def votesOn (s : VoteStore) (id : Uuid) : List ℤ :=
  (s.rows.rows.filter fun a => decide (a.targetId = id)).map Vote.value

/-- The value that a transaction has read, no vote counting as zero. -/
def valueRead : List (Prog.Event VoteCall VoteResp VoteError) → ℤ
  | ⟨.selectVote _ _, .ok existing⟩ :: _ => Option.getD (α := ℤ) existing 0
  | _ :: seen => valueRead seen
  | [] => 0

/-- **The condition.** A delete finds the value that was read, and so does an
update; or the vote is gone, and the update would have left it as it was read. -/
def AsRead (s : VoteStore) (t : VoteSession) : VoteCall → Prop
  | .deleteVote userId targetId =>
    voteScale.weightOf ((t.view voteEngine s).rows.get? (voteKey userId targetId)) = valueRead t.seen
  | .updateVote userId targetId value =>
    (((t.view voteEngine s).rows.get? (voteKey userId targetId)).map Vote.value).getD value =
      valueRead t.seen
  | _ => True

instance (s : VoteStore) (t : VoteSession) : (c : VoteCall) → Decidable (AsRead s t c)
  | .selectVote _ _ => .isTrue trivial
  | .deleteVote _ _ => inferInstanceAs (Decidable (_ = _))
  | .updateVote _ _ _ => inferInstanceAs (Decidable (_ = _))
  | .insertVote _ _ _ => .isTrue trivial
  | .addUpvote _ _ _ => .isTrue trivial

section Accounted

variable {s s' : VoteStore} {t : VoteSession}

/-- What a transaction has read and written, and has left to do. -/
inductive Accounted (s : VoteStore) : VoteProg VoteResult → List VoteWrite →
    List (Prog.Event VoteCall VoteResp VoteError) → Prop where
  | vote {op} : Accounted s (vote op) [] []
  | read {userId targetId targetType value existing} :
      Accounted s (voteRead userId targetId targetType value existing) []
        [⟨.selectVote userId targetId, .ok existing⟩]
  | written {w targetId targetType delta finalVote seen}
      (moved : Moved voteScale s.rows w targetId delta) :
      Accounted s (voteWritten targetId targetType delta finalVote) (w.toList.map .change) seen
  | settled {r writes id seen} (pending : Pending voteScale s writes id 0) :
      Accounted s (.ret r) writes seen
  | failed {e writes seen} : Accounted s (.fail e) writes seen

/-- A vote written over one of the same key. -/
theorem shifts_put {a : Vote} :
    Shifts voteScale s.rows (.put a) a.targetId
      (a.value - voteScale.weightOf (s.rows.get? (key a))) := by
  have hold : ∀ b ∈ s.rows.get? (key a), voteScale.subject b = a.targetId := by
    intro b hb
    have hkey : voteKey b.userId b.targetId = voteKey a.userId a.targetId := Table.key_of_get? hb
    exact (Prod.mk.inj (toLex.injective hkey)).2
  exact shifts_of (by simp [Change.new, voteScale]) hold

theorem shifts_drop {userId targetId : Uuid} :
    Shifts voteScale s.rows (.drop (voteKey userId targetId)) targetId
      (0 - voteScale.weightOf (s.rows.get? (voteKey userId targetId))) := by
  have hold : ∀ b ∈ s.rows.get? (voteKey userId targetId), voteScale.subject b = targetId := by
    intro b hb
    have hkey : voteKey b.userId b.targetId = voteKey userId targetId := Table.key_of_get? hb
    exact (Prod.mk.inj (toLex.injective hkey)).2
  exact shifts_of (by simp [Change.new]) hold

/-- A delete moves the total by the value that it finds. -/
theorem deleteVote_moved (userId targetId : Uuid) :
    ∃ w, execVote (.deleteVote userId targetId) s = (.ok (), w.map Entry.change) ∧
      Moved voteScale s.rows w targetId
        (0 - voteScale.weightOf (s.rows.get? (voteKey userId targetId))) := by
  cases ha : s.rows.get? (voteKey userId targetId) with
  | none =>
    refine ⟨none, ?_, rfl⟩
    simp only [execVote, ha, Option.map_none]
  | some a =>
    refine ⟨some (.drop (voteKey userId targetId)), ?_, ?_⟩
    · simp only [execVote, ha, Option.map_some]
    · rw [← ha]
      exact shifts_drop

/-- An update that does not fail moves the total from the value that it finds
to the new one. -/
theorem updateVote_moved (userId targetId : Uuid) (value : ℤ) :
    (∃ e, execVote (.updateVote userId targetId value) s = (.error e, none)) ∨
    ∃ w, execVote (.updateVote userId targetId value) s = (.ok (), w.map Entry.change) ∧
      Moved voteScale s.rows w targetId
        (value - ((s.rows.get? (voteKey userId targetId)).map Vote.value).getD value) := by
  cases ha : s.rows.get? (voteKey userId targetId) with
  | none =>
    refine .inr ⟨none, ?_, sub_self value⟩
    simp only [execVote, ha, Option.map_none]
  | some a =>
    have hkey : voteKey a.userId a.targetId = voteKey userId targetId := Table.key_of_get? ha
    obtain ⟨-, rfl⟩ := Prod.mk.inj (toLex.injective hkey)
    by_cases hcheck : checkValue value
    · refine .inr ⟨some (.put { a with value }), ?_, ?_⟩
      · simp only [execVote, ha, if_pos hcheck, Option.map_some]
      · have hshift := shifts_put (s := s) (a := { a with value })
        change Shifts _ _ _ a.targetId (value - voteScale.weightOf
          (s.rows.get? (voteKey a.userId a.targetId))) at hshift
        rw [hkey, ha] at hshift
        exact hshift
    · refine .inl ⟨.checkViolation, ?_⟩
      simp only [execVote, ha, if_neg hcheck]

/-- An insert that does not fail moves the total by the value: there was no vote. -/
theorem insertVote_moved (userId targetId : Uuid) (value : ℤ) :
    (∃ e, execVote (.insertVote userId targetId value) s = (.error e, none)) ∨
    ∃ w, execVote (.insertVote userId targetId value) s = (.ok (), w.map Entry.change) ∧
      Moved voteScale s.rows w targetId (value - 0) := by
  by_cases hcheck : checkValue value
  · cases ha : s.rows.get? (voteKey userId targetId) with
    | none =>
      refine .inr ⟨some (.put ⟨userId, targetId, value⟩), ?_, ?_⟩
      · simp only [execVote, if_pos hcheck, ha, Option.map_some]
      · have hshift := shifts_put (s := s) (a := ⟨userId, targetId, value⟩)
        have hkey : key (⟨userId, targetId, value⟩ : Vote) = voteKey userId targetId := rfl
        rw [hkey, ha] at hshift
        exact hshift
    | some a =>
      refine .inl ⟨.database .uniqueViolation, ?_⟩
      simp only [execVote, if_pos hcheck, ha]
  · refine .inl ⟨.checkViolation, ?_⟩
    simp only [execVote, if_neg hcheck]

/-- The vote written on what was read. -/
theorem accounted_read {op : VoteOp} {userId targetId : Uuid} {targetType : VoteTarget} {value : ℤ}
    {existing : Option ℤ} {c : VoteCall} {k : Except VoteError (VoteResp c) → VoteProg VoteResult}
    {isOpen : Bool} (hp : voteRead userId targetId targetType value existing = .call c k)
    (hread : AsRead s ⟨op, .call c k, [], [⟨.selectVote userId targetId, .ok existing⟩], isOpen⟩ c) :
    Accounted s (k (execVote c s).1) ((execVote c s).2.toList ++ [])
      (⟨c, (execVote c s).1⟩ :: [⟨.selectVote userId targetId, .ok existing⟩]) := by
  have hwrites : ∀ w : Option (Change Vote (Uuid ×ₗ Uuid)),
      (w.map (Entry.change : _ → VoteWrite)).toList ++ [] = w.toList.map Entry.change := fun w => by
    rw [List.append_nil, Option.toList_map]
  unfold voteRead at hp
  by_cases hzero : value = 0
  · rw [if_pos hzero] at hp
    cases hp
    have hvalue : voteScale.weightOf (s.rows.get? (voteKey userId targetId)) = existing.getD 0 := hread
    obtain ⟨w, hx, hmoved⟩ := deleteVote_moved (s := s) userId targetId
    rw [hvalue] at hmoved
    rw [hx, hwrites, hzero]
    exact .written hmoved
  · rw [if_neg hzero] at hp
    by_cases hsome : existing.isSome = true
    · rw [if_pos hsome] at hp
      cases hp
      have hvalue : ((s.rows.get? (voteKey userId targetId)).map Vote.value).getD value =
          existing.getD 0 := hread
      obtain ⟨e, hx⟩ | ⟨w, hx, hmoved⟩ := updateVote_moved (s := s) userId targetId value
      · rw [hx]
        exact .failed
      · rw [hx, hwrites]
        rw [hvalue] at hmoved
        exact .written hmoved
    · rw [if_neg hsome] at hp
      cases hp
      have hnone : existing = none := by simpa using hsome
      obtain ⟨e, hx⟩ | ⟨w, hx, hmoved⟩ := insertVote_moved (s := s) userId targetId value
      · rw [hx]
        exact .failed
      · rw [hx, hwrites, hnone]
        exact .written hmoved

/-- **A statement.** -/
theorem Accounted.statement (h : Accounted s t.rest t.writes t.seen) {c : VoteCall}
    {k : Except VoteError (VoteResp c) → VoteProg VoteResult} (hp : t.rest = .call c k)
    (hread : AsRead s t c) :
    Accounted s (t.after voteEngine s c k).rest (t.after voteEngine s c k).writes
      (t.after voteEngine s c k).seen := by
  obtain ⟨op, rest, writes, seen, isOpen⟩ := t
  dsimp only at h hp
  subst hp
  generalize hrest : Prog.call c k = p at h
  cases h with
  | vote =>
    change _ = Prog.call _ _ at hrest
    cases hrest
    exact .read
  | read => exact accounted_read hrest.symm hread
  | @written w targetId targetType delta finalVote seen moved =>
    change _ = Prog.call _ _ at hrest
    cases hrest
    simp only [Session.after, Session.view, voteEngine]
    cases hc : target targetType targetId ((w.toList.map Entry.change).foldr Entry.apply s) with
    | none =>
      simp only [execVote, hc]
      exact .failed
    | some c =>
      obtain ⟨hget, -⟩ := Option.filter_eq_some_iff.mp hc
      rw [counters_changed] at hget
      have hid : c.id = targetId := Table.key_of_get? hget
      have hpending : Pending voteScale s (.count { c with upvote := c.upvote + delta } ::
          w.toList.map .change) targetId (delta - delta) := .counted moved hget hid rfl
      rw [sub_self] at hpending
      simp only [execVote, hc]
      exact .settled hpending
  | settled pending => cases hrest
  | failed => cases hrest

/-- What a transaction has accounted for rests on the rows it has written. -/
theorem Accounted.stable {p : VoteProg VoteResult} {writes : List VoteWrite}
    {seen : List (Prog.Event VoteCall VoteResp VoteError)} (h : Accounted s p writes seen)
    (hsame : ∀ q ∈ writes.map Entry.place, s'.cell q = s.cell q) : Accounted s' p writes seen := by
  cases h with
  | vote => exact .vote
  | read => exact .read
  | written moved => exact .written (moved.stable hsame)
  | settled pending => exact .settled (pending.stable hsame)
  | failed => exact .failed

/-- **Commit.** -/
theorem Accounted.commit {r : VoteResult} {writes : List VoteWrite}
    {seen : List (Prog.Event VoteCall VoteResp VoteError)} (hs : Balanced voteScale s)
    (h : Accounted s (.ret r) writes seen) : Balanced voteScale (writes.foldr Entry.apply s) := by
  generalize hp : (.ret r : VoteProg VoteResult) = p at h
  cases h with
  | settled pending => exact pending.balanced (.inl rfl) hs
  | vote => cases hp
  | read =>
    unfold voteRead at hp
    dsimp only at hp
    split_ifs at hp <;> cases hp
  | written moved => cases hp
  | failed => cases hp

end Accounted

/-! ### Runs -/

/-- Every score is the sum of the votes, and no transaction is open. -/
def Initial (P : VoteDb) : Prop := Balanced voteScale P.store ∧ P.sessions = []

theorem voteRules : SessionRules voteEngine vote (OnStatements AsRead) (Balanced voteScale)
    (fun _ _ => True) (fun s t => Accounted s t.rest t.writes t.seen) where
  start _ _ _ := .vote
  statement _ _ t c _ hguard hstating hrest _ _ ht := ht.statement hrest (hguard (t, c) hstating)
  stable _ _ _ ht hsame _ := ht.stable hsame
  commit s t r hrest _ hs ht :=
    ⟨(hrest ▸ ht : Accounted s (.ret r) t.writes t.seen).commit hs, trivial⟩

/-- **The score is the sum of the votes**, in every state of every run whose
deletes and updates find what was read. -/
theorem score_is_votes {P : VoteDb}
    (h : Reach Initial (Db.next voteEngine vote) (OnStatements AsRead) P) :
    ∀ c ∈ P.store.counters.rows, c.upvote = (votesOn P.store c.id).sum := by
  have hbalanced : Balanced voteScale P.store := (sessions_run voteRules (fun _ hP => hP) h).store
  intro c hc
  exact (hbalanced c hc).trans (Scale.total_eq_sum P.store.rows c.id)

/-- A question with one vote, of user 1, and no transaction. -/
def oneVote : VoteDb :=
  ⟨⟨Table.empty.upsert ⟨1, 7, 1⟩, Table.empty.upsert ⟨7, .question 9 1 "why?", 3, "", 1⟩⟩, []⟩

/-- User 1 turns the vote round, and user 2 votes while that is open. -/
def turnedRound : List (TxMove VoteOp) :=
  [.start ⟨1, 7, .question, -1⟩, .start ⟨2, 7, .question, 1⟩, .statement 0, .statement 1,
    .statement 0, .statement 1, .statement 1, .statement 0, .commit 1, .statement 0, .commit 0]

theorem score_is_votes_turnedRound : ∃ P : VoteDb, P.store.counters.rows.map Post.upvote = [0] ∧
    ∀ c ∈ P.store.counters.rows, c.upvote = (votesOn P.store c.id).sum :=
  ⟨play (Db.next voteEngine vote) turnedRound oneVote, by decide +kernel,
    score_is_votes (reach_play (.start ⟨by decide +kernel, rfl⟩) (by decide +kernel))⟩

/-- User 1 takes the vote back in two calls at once: both have read it when the
first deletes it. -/
def takenTwice : List (TxMove VoteOp) :=
  [.start ⟨1, 7, .question, 0⟩, .start ⟨1, 7, .question, 0⟩, .statement 0, .statement 1,
    .statement 0, .statement 0, .commit 0, .statement 1, .statement 1, .commit 1]

theorem not_score_is_votes_takenTwice : ¬ ∀ P : VoteDb,
    Reach Initial (Db.next voteEngine vote) (fun _ _ => True) P →
      (∀ t ∈ P.sessions, t.isOpen = false) →
        ∀ c ∈ P.store.counters.rows, c.upvote = (votesOn P.store c.id).sum := by
  intro h
  have hrun := h (play (Db.next voteEngine vote) takenTwice oneVote)
    (reach_play (.start ⟨by decide +kernel, rfl⟩) guarded_true) (by decide +kernel)
  revert hrun
  decide +kernel

end Votes
end Gitdot
