/-
# What callers are told

An append that has been admitted is answered at most once, and the ranges that are
acknowledged come in the order of the log and do not overlap. What a session is told
are its appends in the order in which they were admitted, and once it has been told of
an error it is told of nothing but errors: the session is over with the error, and the
error waits for all that the session has been promised before (`Ticket.reject`). The
answers of a state are those that are out, then those in waiting; a decision puts one
answer among them, behind all those of its session (`decided_answers`).

Key definitions: `Backend.answers`, `acks`, `ofSession`, `Backend.Orderly`.
Key theorems: `decided_answers`, `Backend.exec_orderly`, `Backend.Reached.orderly`.
-/
import Gitdot.S2.Safety

namespace Gitdot
namespace S2

open Lib

/-- An append and what it is told, or will be. -/
abbrev Answer := Call × Except AppendError AckRange

def answerOf (r : Reply) : Answer := (r.1, r.2.map AppendAck.toAckRange)

def BlockedReply.answer (b : BlockedReply) : Answer := (b.tx, b.reply)

def acks (l : List Answer) : List AckRange := l.filterMap fun a => a.2.toOption

def ofSession (sid : SessionId) (l : List Answer) : List Answer :=
  l.filter fun a => decide (a.1.session = some sid)

namespace Backend

def waiting (b : Backend) : List BlockedReply :=
  b.streamer.elim [] fun s => s.pendingAppends.queue

/-- The answers that are out, and those in waiting. -/
def answers (b : Backend) : List Answer :=
  b.replies.map answerOf ++ b.waiting.map BlockedReply.answer

/-- The appends of a session, as they were admitted. -/
def admittedBy (b : Backend) (sid : SessionId) : List Call :=
  b.admitted.filter fun c => decide (c.session = some sid)

structure Orderly (b : Backend) : Prop where
  ids : (b.answers.map fun a => a.1.id).Nodup
  known : ∀ a ∈ b.answers, a.1 ∈ b.admitted
  turn : (acks b.answers).Pairwise fun x y => x.stop.seqNum ≤ y.start.seqNum
  bound : ∀ x ∈ acks b.answers, x.stop.seqNum ≤ (logOf (b.history ++ b.pending)).length
  streamers : ∀ c ∈ b.admitted, ∀ sid ∈ c.session, sid.streamer < b.nextId
  told : ∀ sid, (ofSession sid (b.replies.map answerOf)).map Prod.fst <+: b.admittedBy sid
  ordered : ∀ sid, (ofSession sid b.answers).Pairwise fun x y => y.2.isOk → x.2.isOk
  own : ∀ s ∈ b.streamer, ∀ w ∈ s.pendingAppends.queue, ∀ sid ∈ w.tx.session, sid.streamer = s.id
  all : ∀ s ∈ b.streamer, ∀ sid, sid.streamer = s.id →
    (ofSession sid b.answers).map Prod.fst = b.admittedBy sid
  alive : ∀ s ∈ b.streamer, ∀ sid, sid.streamer = s.id →
    (s.sessions sid.number).poisoned = false → ∀ a ∈ ofSession sid b.answers, a.2.isOk

end Backend

section Answers

variable {sid : SessionId} {l l' : List Answer} {a : Answer} {call : Call}
  {reply : Except AppendError AckRange}

theorem ofSession_append : ofSession sid (l ++ l') = ofSession sid l ++ ofSession sid l' :=
  List.filter_append ..

theorem acks_append : acks (l ++ l') = acks l ++ acks l' := List.filterMap_append

theorem mem_acks {x : AckRange} : x ∈ acks l ↔ ∃ c, (c, .ok x) ∈ l := by
  unfold acks
  rw [List.mem_filterMap]
  constructor
  · rintro ⟨⟨c, reply⟩, hmem, heq⟩
    cases reply with
    | ok range => exact ⟨c, Option.some.inj heq ▸ hmem⟩
    | error e => cases heq
  · rintro ⟨c, hmem⟩
    exact ⟨_, hmem, rfl⟩

theorem ofSession_cons (h : a.1.session = some sid) :
    ofSession sid (a :: l) = a :: ofSession sid l :=
  List.filter_cons_of_pos (by simpa using h)

theorem ofSession_cons_of_ne (h : a.1.session ≠ some sid) :
    ofSession sid (a :: l) = ofSession sid l :=
  List.filter_cons_of_neg (by simpa using h)

/-- The answers of other sessions. -/
theorem ofSession_eq_nil (h : ∀ a ∈ l, a.1.session ≠ some sid) : ofSession sid l = [] :=
  List.filter_eq_nil_iff.mpr fun a ha => by simpa using h a ha

theorem answerOf_toReply (tail : StreamPosition) (b : BlockedReply) :
    answerOf (b.toReply tail) = b.answer := by
  obtain ⟨reply, point, tx⟩ := b
  cases reply <;> rfl

theorem acks_error (l : List Answer) {e : AppendError} :
    acks ((call, .error e) :: l) = acks l := rfl

/-- An answer comes among the others, behind those of its session. -/
def Inserts (answers answers' : List Answer) (x : Answer) : Prop :=
  ∃ l₁ l₂, answers = l₁ ++ l₂ ∧ answers' = l₁ ++ x :: l₂ ∧
    (x.2.isOk → l₂ = []) ∧ ∀ sid ∈ x.1.session, ofSession sid l₂ = []

theorem Inserts.perm {x : Answer} (h : Inserts l l' x) : l'.Perm (x :: l) := by
  obtain ⟨l₁, l₂, rfl, rfl, -, -⟩ := h
  exact List.perm_middle

theorem Inserts.acks {x : Answer} (h : Inserts l l' x) :
    S2.acks l' = S2.acks l ++ x.2.toOption.toList := by
  obtain ⟨l₁, l₂, rfl, rfl, hok, -⟩ := h
  obtain ⟨call, reply⟩ := x
  cases reply with
  | ok range =>
    rw [hok rfl, List.append_nil, acks_append]
    rfl
  | error e =>
    rw [acks_append, acks_append, acks_error]
    exact (List.append_nil _).symm

theorem Inserts.ofSession {x : Answer} (h : Inserts l l' x) :
    (∀ sid ∈ x.1.session, S2.ofSession sid l' = S2.ofSession sid l ++ [x]) ∧
      ∀ sid, x.1.session ≠ some sid → S2.ofSession sid l' = S2.ofSession sid l := by
  obtain ⟨l₁, l₂, rfl, rfl, -, hnone⟩ := h
  refine ⟨fun sid hsid => ?_, fun sid hsid => ?_⟩
  · rw [ofSession_append, ofSession_append, ofSession_cons hsid, hnone sid hsid, List.append_nil]
  · rw [ofSession_append, ofSession_append, ofSession_cons_of_ne hsid]

end Answers

/-! ### One move -/

section Moves

variable {b : Backend} {s : Streamer} {call : Call} {o : Streamer.Outcome} {sid : SessionId}

/-- A decision is of one append. -/
theorem Decision.own {log : List SequencedRecord} (h : Decision s log call o) :
    (∀ r ∈ o.replies, r.1 = call) ∧
      ∀ w ∈ o.streamer.pendingAppends.queue, w ∈ s.pendingAppends.queue ∨ w.tx = call := by
  cases h with
  | accepted range hnone hqueue =>
    rw [hnone, hqueue]
    refine ⟨fun r hr => absurd hr List.not_mem_nil,
      fun w hw => (List.mem_append.mp hw).imp_right fun hw => ?_⟩
    rw [List.mem_singleton.mp hw]
  | refused e hone hqueue =>
    rw [hone, hqueue]
    exact ⟨fun r hr => by rw [List.mem_singleton.mp hr], fun w hw => .inl hw⟩
  | delayed e point hnone hqueue =>
    rw [hnone, hqueue]
    refine ⟨fun r hr => absurd hr List.not_mem_nil,
      fun w hw => (Waiting.mem_enqueue.mp hw).symm.imp_right fun hw => ?_⟩
    rw [hw]

/-- **A decision** puts one answer among those of the streamer. -/
theorem decided_answers (hs : s.Holds (b.history ++ b.pending))
    (hlive : ∀ sid ∈ call.session, (s.sessions sid.number).poisoned = false)
    (hd : Decided s (b.history ++ b.pending) call o) (replies : List Answer) :
    ∃ reply, Inserts (replies ++ s.pendingAppends.queue.map BlockedReply.answer)
        (replies ++ o.replies.map answerOf ++
          o.streamer.pendingAppends.queue.map BlockedReply.answer) (call, reply) ∧
      (∀ range, reply = .ok range → o.replies = [] ∧
        range.start.seqNum = (logOf (b.history ++ b.pending)).length ∧
        range.stop.seqNum ≤ (logOf (b.history ++ b.pending ++ o.writes)).length) ∧
      ∀ e, reply = .error e → ∀ sid ∈ call.session,
        (o.streamer.sessions sid.number).poisoned = true := by
  -- what the session still waits for is no more than it has been promised
  have hpromised : ∀ sid ∈ call.session, ∀ w ∈ s.pendingAppends.queue, w.tx.session = some sid →
      w.durabilityDependency ≤ (s.sessions sid.number).lastAckEnd := by
    intro sid hsid w hw htx
    refine ((hs.queue w hw).session sid htx).resolve_left fun hp => ?_
    rw [hlive sid hsid] at hp
    cases hp
  cases hd.decision with
  | accepted range hnone hqueue hstart =>
    refine ⟨.ok range,
      ⟨replies ++ s.pendingAppends.queue.map BlockedReply.answer, [], ?_, ?_, ?_, ?_⟩,
      fun range' heq => ?_, nofun⟩
    · rw [List.append_nil]
    · rw [hnone, hqueue, List.map_append, List.map_nil, List.append_nil, List.append_assoc]
      rfl
    · exact fun _ => rfl
    · exact fun _ _ => rfl
    · cases heq
      have hmem : ⟨.ok range, range.stop.seqNum, call⟩ ∈ o.streamer.pendingAppends.queue := by
        rw [hqueue]
        exact List.mem_append_right _ (List.mem_singleton_self _)
      exact ⟨hnone, hstart, (hd.holds.queue _ hmem).le⟩
  | refused e hone hqueue _ _ hover =>
    refine ⟨.error e, ⟨replies, s.pendingAppends.queue.map BlockedReply.answer, rfl, ?_, nofun, ?_⟩,
      nofun, fun _ _ sid hsid => (hover sid hsid).1⟩
    · rw [hone, hqueue, List.append_assoc]
      rfl
    · intro sid hsid
      refine ofSession_eq_nil fun a ha htx => ?_
      obtain ⟨w, hw, rfl⟩ := List.mem_map.mp ha
      have := hpromised sid hsid w hw htx
      have := (hover sid hsid).2
      have := (hs.queue w hw).stable
      omega
  | delayed e point hnone hqueue hover =>
    refine ⟨.error e, ⟨replies ++ (Waiting.due BlockedReply.durabilityDependency point
        s.pendingAppends.queue).map BlockedReply.answer,
      (Waiting.later BlockedReply.durabilityDependency point
        s.pendingAppends.queue).map BlockedReply.answer, ?_, ?_, nofun, ?_⟩,
      nofun, fun _ _ sid hsid => (hover sid hsid).1⟩
    · rw [List.append_assoc, ← List.map_append, Waiting.due_append_later]
    · rw [hnone, hqueue, List.map_nil, List.append_nil, Waiting.enqueue, List.map_append,
        List.append_assoc]
      rfl
    · intro sid hsid
      refine ofSession_eq_nil fun a ha htx => ?_
      obtain ⟨w, hw, rfl⟩ := List.mem_map.mp ha
      have hlater := hs.ordered.filter_later (n := point)
        (p := fun w => decide (w.tx.session = some sid)) fun w hw htx =>
          (hpromised sid hsid w hw (of_decide_eq_true htx)).trans (hover sid hsid).2
      exact List.not_mem_nil (hlater ▸ List.mem_filter.mpr ⟨hw, decide_eq_true htx⟩)

end Moves

namespace Backend

variable {b : Backend} {s : Streamer} {call : Call} {sid : SessionId}

/-- A streamer that ends takes its answers in waiting with it. -/
theorem Orderly.drop (h : b.Orderly) (panicked : Bool) :
    Orderly { b with streamer := none, panicked := panicked } := by
  have hnil : ([] : List BlockedReply).map BlockedReply.answer = [] := rfl
  have hsub : (b.replies.map answerOf ++ []).Sublist b.answers :=
    (List.append_nil _).symm ▸ List.sublist_append_left _ _
  exact ⟨h.ids.sublist (hsub.map _), fun a ha => h.known a (hsub.subset ha),
    h.turn.sublist (hsub.filterMap _), fun x hx => h.bound x ((hsub.filterMap _).subset hx),
    h.streamers, h.told, fun sid => (h.ordered sid).sublist (hsub.filter _),
    fun s hs => absurd hs (Option.not_mem_none s), fun s hs => absurd hs (Option.not_mem_none s),
    fun s hs => absurd hs (Option.not_mem_none s)⟩

theorem Orderly.enter (h : Orderly { b with streamer := some s }) : (b.enter s).Orderly := by
  unfold Backend.enter
  split
  · exact h.drop true
  · exact h.drop b.panicked
  · exact h

/-- Where the streamer runs, what its sessions are told are the appends that they were
admitted. -/
theorem told_of_all (hall : ∀ s ∈ b.streamer, ∀ sid, sid.streamer = s.id →
      (ofSession sid b.answers).map Prod.fst = b.admittedBy sid)
    (hs : b.streamer = some s) (hsid : sid.streamer = s.id) :
    (ofSession sid (b.replies.map answerOf)).map Prod.fst <+: b.admittedBy sid := by
  rw [← hall s hs sid hsid]
  unfold answers
  rw [ofSession_append, List.map_append]
  exact List.prefix_append _ _

theorem receive_orderly (hinv : b.Inv) (h : b.Orderly) (hadm : b.Receives call) (closed : Bool)
    (now : ℕ) : (b.receive call closed now).Orderly := by
  rcases receive_cases hinv hadm closed now with heq | ⟨s, o, hs, hlive, hd, heq⟩
  · rw [heq]
    exact h
  rw [heq]
  refine Orderly.enter ?_
  let b' : Backend := { b with
    admitted := b.admitted ++ [call]
    replies := b.replies ++ o.replies
    pending := b.pending ++ o.writes
    streamer := some o.streamer }
  change b'.Orderly
  obtain ⟨reply, hins, hok, herr⟩ := decided_answers (hinv.live s hs).holds hlive hd
    (b.replies.map answerOf)
  obtain ⟨hreplies, hqueue⟩ := hd.decision.own
  have hold : b.answers = b.replies.map answerOf ++
      s.pendingAppends.queue.map BlockedReply.answer := by
    rw [answers, waiting, hs]
    rfl
  rw [← hold, ← List.map_append] at hins
  change Inserts b.answers b'.answers (call, reply) at hins
  obtain ⟨hcall, hother⟩ := hins.ofSession
  have hown : ∀ sid ∈ call.session, sid.streamer = s.id := hadm.session s hs
  have hnew : ∀ s' ∈ b'.streamer, s' = o.streamer := fun s' hs' => (Option.some.inj hs').symm
  have hadmitted : ∀ sid,
      (call.session = some sid → b'.admittedBy sid = b.admittedBy sid ++ [call]) ∧
      (call.session ≠ some sid → b'.admittedBy sid = b.admittedBy sid) := by
    intro sid
    simp only [admittedBy, b', List.filter_append]
    exact ⟨fun hc => by simp [hc], fun hc => by simp [hc]⟩
  have hall : ∀ s' ∈ b'.streamer, ∀ sid, sid.streamer = s'.id →
      (ofSession sid b'.answers).map Prod.fst = b'.admittedBy sid := by
    intro s' hs' sid hsid
    rw [hnew s' hs', hd.id] at hsid
    by_cases hmem : call.session = some sid
    · rw [hcall sid hmem, (hadmitted sid).1 hmem, List.map_append, h.all s hs sid hsid]
      rfl
    · rw [hother sid hmem, (hadmitted sid).2 hmem, h.all s hs sid hsid]
  refine ⟨?_, fun a ha => ?_, ?_, fun x hx => ?_, fun c hc sid hsid => ?_, fun sid => ?_,
    fun sid => ?_, fun s' hs' w hw sid hsid => ?_, hall, fun s' hs' sid hsid hp a ha => ?_⟩
  · refine (hins.perm.map _).nodup_iff.mpr (List.nodup_cons.mpr ⟨fun hmem => ?_, h.ids⟩)
    obtain ⟨a, ha, heq⟩ := List.mem_map.mp hmem
    exact hadm.fresh a.1 (h.known a ha) heq
  · rcases List.mem_cons.mp (hins.perm.mem_iff.mp ha) with rfl | ha
    · exact List.mem_append_right _ (List.mem_singleton_self _)
    · exact List.mem_append_left _ (h.known a ha)
  · rw [hins.acks]
    refine List.pairwise_append.mpr ⟨h.turn, ?_, fun x hx y hy => ?_⟩
    · cases reply with
      | ok range => exact List.pairwise_singleton _ _
      | error e => exact .nil
    · cases reply with
      | ok range =>
        obtain rfl := List.mem_singleton.mp hy
        rw [(hok _ rfl).2.1]
        exact h.bound x hx
      | error e => cases hy
  · rw [hins.acks, List.mem_append] at hx
    have hlog : b'.history ++ b'.pending = b.history ++ b.pending ++ o.writes :=
      (List.append_assoc _ _ _).symm
    rw [hlog]
    rcases hx with hx | hx
    · have := h.bound x hx
      rw [logOf_append, List.length_append]
      omega
    · cases reply with
      | ok range =>
        obtain rfl := List.mem_singleton.mp hx
        exact (hok _ rfl).2.2
      | error e => cases hx
  · rcases List.mem_append.mp hc with hc | hc
    · exact h.streamers c hc sid hsid
    · rw [List.mem_singleton.mp hc] at hsid
      rw [hown sid hsid]
      exact (hinv.live s hs).id
  · by_cases hsid : sid.streamer = s.id
    · exact told_of_all hall rfl (hsid.trans hd.id.symm)
    · have hne : call.session ≠ some sid := fun hc => hsid (hown sid hc)
      have hmore : ofSession sid (o.replies.map answerOf) = [] := ofSession_eq_nil fun a ha => by
        obtain ⟨r, hr, rfl⟩ := List.mem_map.mp ha
        rw [answerOf, hreplies r hr]
        exact hne
      have hkept : b'.replies.map answerOf = b.replies.map answerOf ++ o.replies.map answerOf :=
        List.map_append
      rw [(hadmitted sid).2 hne, hkept, ofSession_append, hmore, List.append_nil]
      exact h.told sid
  · by_cases hmem : call.session = some sid
    · rw [hcall sid hmem]
      refine List.pairwise_append.mpr ⟨h.ordered sid, List.pairwise_singleton _ _,
        fun x hx _ _ _ => ?_⟩
      exact h.alive s hs sid (hown sid hmem) (hlive sid hmem) x hx
    · rw [hother sid hmem]
      exact h.ordered sid
  · rw [hnew s' hs'] at hw ⊢
    rw [hd.id]
    rcases hqueue w hw with hw | hw
    · exact h.own s hs w hw sid hsid
    · exact hown sid (hw ▸ hsid)
  · rw [hnew s' hs'] at hsid hp
    rw [hd.id] at hsid
    have hlive' : (s.sessions sid.number).poisoned = false := by
      cases hpo : (s.sessions sid.number).poisoned with
      | false => rfl
      | true =>
        rw [hd.poisoned _ hpo] at hp
        cases hp
    by_cases hmem : call.session = some sid
    · rw [hcall sid hmem] at ha
      rcases List.mem_append.mp ha with ha | ha
      · exact h.alive s hs sid hsid hlive' a ha
      · obtain rfl := List.mem_singleton.mp ha
        cases reply with
        | ok range => rfl
        | error e =>
          rw [herr e rfl sid hmem] at hp
          cases hp
    · rw [hother sid hmem] at ha
      exact h.alive s hs sid hsid hlive' a ha

theorem complete_orderly (hinv : b.Inv) (h : b.Orderly) : b.complete.Orderly := by
  rcases complete_cases hinv with heq | ⟨s, w, futs, ⟨s', replies⟩, hs, -, -, hset, heq⟩
  · rw [heq]
    exact h
  rw [heq]
  refine Orderly.enter ?_
  let b' : Backend := { b with replies := b.replies ++ replies, streamer := some s' }
  change b'.Orderly
  have hnew : ∀ t ∈ b'.streamer, t = s' := fun t ht => (Option.some.inj ht).symm
  have hid : s'.id = s.id := hset.id
  have hsessions : s'.sessions = s.sessions := hset.sessions
  have hdue : replies.map answerOf = (Waiting.due BlockedReply.durabilityDependency
      s'.stablePos.seqNum s.pendingAppends.queue).map BlockedReply.answer := by
    have := hset.replies
    dsimp only at this
    rw [this, List.map_map]
    exact List.map_congr_left fun w _ => answerOf_toReply _ w
  -- the answers that go out are the first of those in waiting
  have hsame : b'.answers = b.answers := by
    have hqueue : s'.pendingAppends.queue = _ := hset.queue
    have hsplit := Waiting.due_append_later BlockedReply.durabilityDependency s'.stablePos.seqNum
      s.pendingAppends.queue
    calc b'.answers = (b.replies ++ replies).map answerOf ++
          s'.pendingAppends.queue.map BlockedReply.answer := rfl
      _ = b.replies.map answerOf ++ s.pendingAppends.queue.map BlockedReply.answer := by
          rw [List.map_append, hdue, hqueue, List.append_assoc, ← List.map_append, hsplit]
      _ = b.answers := by
          rw [answers, waiting, hs]
          rfl
  have hall : ∀ t ∈ b'.streamer, ∀ sid, sid.streamer = t.id →
      (ofSession sid b'.answers).map Prod.fst = b'.admittedBy sid := by
    intro t ht sid hsid
    rw [hnew t ht, hid] at hsid
    rw [hsame]
    exact h.all s hs sid hsid
  refine ⟨hsame ▸ h.ids, hsame ▸ h.known, hsame ▸ h.turn, hsame ▸ h.bound, h.streamers,
    fun sid => ?_, hsame ▸ h.ordered, fun t ht w hw sid hsid => ?_, hall,
    fun t ht sid hsid hp a ha => ?_⟩
  · by_cases hsid : sid.streamer = s.id
    · exact told_of_all hall rfl (hsid.trans hid.symm)
    · have hmore : ofSession sid (replies.map answerOf) = [] := ofSession_eq_nil fun a ha htx => by
        rw [hdue] at ha
        obtain ⟨w, hw, rfl⟩ := List.mem_map.mp ha
        exact hsid (h.own s hs w (Waiting.mem_of_mem_due hw) sid htx)
      have hkept : b'.replies.map answerOf = b.replies.map answerOf ++ replies.map answerOf :=
        List.map_append
      rw [hkept, ofSession_append, hmore, List.append_nil]
      exact h.told sid
  · rw [hnew t ht] at hw ⊢
    have hqueue : s'.pendingAppends.queue = _ := hset.queue
    rw [hqueue] at hw
    rw [hid]
    exact h.own s hs w (Waiting.mem_of_mem_later hw) sid hsid
  · rw [hnew t ht] at hsid hp
    rw [hsame] at ha
    exact h.alive s hs sid (hsid.trans hid) (hsessions ▸ hp) a ha

theorem map_fst_ofSession (sid : SessionId) (l : List Answer) :
    (ofSession sid l).map Prod.fst =
      (l.map Prod.fst).filter fun c => decide (c.session = some sid) := by
  rw [List.filter_map]
  rfl

theorem fail_orderly (h : b.Orderly) : b.fail.Orderly := by
  unfold fail
  cases hs : b.streamer with
  | none => exact h
  | some s =>
    simp only
    split_ifs
    · exact h
    let b' : Backend := { b with
      streamer := none
      replies := b.replies ++ s.pendingAppends.onDurabilityFailed }
    change b'.Orderly
    let failed : List Answer := s.pendingAppends.queue.map fun w => (w.tx, .error .storage)
    have hold : b.answers = b.replies.map answerOf ++
        s.pendingAppends.queue.map BlockedReply.answer := by
      rw [answers, waiting, hs]
      rfl
    have hkept : b'.replies.map answerOf = b.replies.map answerOf ++ failed := by
      simp only [b', PendingAppends.onDurabilityFailed, List.map_append, List.map_map, failed]
      rfl
    have hnew : b'.answers = b.replies.map answerOf ++ failed := by
      rw [← hkept, answers]
      exact List.append_nil _
    -- the appends are those that were there, and none of them is acknowledged
    have hcalls : b'.answers.map Prod.fst = b.answers.map Prod.fst := by
      have hqueue : failed.map Prod.fst =
          (s.pendingAppends.queue.map BlockedReply.answer).map Prod.fst := by
        simp only [failed, List.map_map]
        rfl
      rw [hnew, hold, List.map_append, List.map_append, hqueue]
    have herror : ∀ a ∈ failed, a.2 = .error .storage := fun a ha => by
      obtain ⟨w, -, rfl⟩ := List.mem_map.mp ha
      rfl
    have hacks : acks b'.answers = acks (b.replies.map answerOf) := by
      have hnone : acks failed = [] := List.eq_nil_iff_forall_not_mem.mpr fun x hx => by
        obtain ⟨c, hc⟩ := mem_acks.mp hx
        cases herror _ hc
      rw [hnew, acks_append, hnone, List.append_nil]
    have hsub : (acks b'.answers).Sublist (acks b.answers) := by
      rw [hacks, hold, acks_append]
      exact List.sublist_append_left _ _
    refine ⟨?_, fun a ha => ?_, h.turn.sublist hsub, fun x hx => h.bound x (hsub.subset hx),
      h.streamers, fun sid => ?_, fun sid => ?_, fun s hs => absurd hs (Option.not_mem_none s),
      fun s hs => absurd hs (Option.not_mem_none s), fun s hs => absurd hs (Option.not_mem_none s)⟩
    · have hids : ∀ l : List Answer, l.map (fun a => a.1.id) = (l.map Prod.fst).map Call.id :=
        fun l => List.map_map.symm
      rw [hids, hcalls, ← hids]
      exact h.ids
    · have hmem : a.1 ∈ b.answers.map Prod.fst := hcalls ▸ List.mem_map_of_mem ha
      obtain ⟨a', ha', heq⟩ := List.mem_map.mp hmem
      exact heq ▸ h.known a' ha'
    · by_cases hsid : sid.streamer = s.id
      · have hall := h.all s hs sid hsid
        rw [map_fst_ofSession] at hall
        rw [hkept, ← hnew, map_fst_ofSession, hcalls, hall]
        exact List.prefix_refl _
      · have hmore : ofSession sid failed = [] := ofSession_eq_nil fun a ha htx => by
          obtain ⟨w, hw, rfl⟩ := List.mem_map.mp ha
          exact hsid (h.own s hs w hw sid htx)
        rw [hkept, ofSession_append, hmore, List.append_nil]
        exact h.told sid
    · have hbefore := h.ordered sid
      rw [hold, ofSession_append] at hbefore
      rw [hnew, ofSession_append]
      have hnot : ∀ a ∈ ofSession sid failed, ¬ a.2.isOk := fun a ha => by
        rw [herror a (List.mem_of_mem_filter ha)]
        exact Bool.false_ne_true
      refine List.pairwise_append.mpr
        ⟨(List.pairwise_append.mp hbefore).1, ?_, fun _ _ a ha hok => ?_⟩
      · exact List.pairwise_of_forall_mem_list fun _ _ a ha hok => absurd hok (hnot a ha)
      · exact absurd hok (hnot a ha)

theorem start_orderly (hinv : b.Inv) (h : b.Orderly) (hnone : b.streamer = none) :
    b.start.Orderly := by
  obtain ⟨result, hsome, hok⟩ := startStreamer_holds hinv.rows hinv.issued.left b.nextId
  unfold start
  rw [hsome]
  cases result with
  | error e => exact h
  | ok s =>
    obtain ⟨-, hid, -, hqueue, -⟩ := hok s rfl
    refine Orderly.enter ?_
    let b' : Backend := { b with nextId := b.nextId + 1, streamer := some s }
    change b'.Orderly
    have hnew : ∀ t ∈ b'.streamer, t = s := fun t ht => (Option.some.inj ht).symm
    have hsame : b'.answers = b.answers := by
      simp only [answers, waiting, b', hnone, Option.elim, hqueue]
    -- no append is of a session of this streamer yet
    have hby : ∀ sid, sid.streamer = s.id → b'.admittedBy sid = [] := fun sid hsid => by
      refine List.filter_eq_nil_iff.mpr fun c hc hcs => ?_
      have := h.streamers c hc sid (of_decide_eq_true hcs)
      omega
    have hmine : ∀ sid, sid.streamer = s.id → ofSession sid b'.answers = [] := fun sid hsid => by
      rw [hsame]
      refine ofSession_eq_nil fun a ha has => ?_
      have := h.streamers a.1 (h.known a ha) sid has
      omega
    refine ⟨hsame ▸ h.ids, hsame ▸ h.known, hsame ▸ h.turn, hsame ▸ h.bound,
      fun c hc sid hsid => Nat.lt_succ_of_lt (h.streamers c hc sid hsid), h.told,
      hsame ▸ h.ordered, fun t ht w hw => ?_, fun t ht sid hsid => ?_,
      fun t ht sid hsid _ a ha => ?_⟩
    · rw [hnew t ht, hqueue] at hw
      exact absurd hw List.not_mem_nil
    · rw [hnew t ht] at hsid
      rw [hmine sid hsid, hby sid hsid]
      rfl
    · rw [hnew t ht] at hsid
      rw [hmine sid hsid] at ha
      exact absurd ha List.not_mem_nil

/-- Moves that leave the appends alone. -/
theorem Orderly.congr {b' : Backend} (h : b.Orderly) (hreplies : b'.replies = b.replies)
    (hstreamer : b'.streamer = b.streamer) (hadmitted : b'.admitted = b.admitted)
    (hnext : b'.nextId = b.nextId) (hlog : b'.history ++ b'.pending = b.history ++ b.pending) :
    b'.Orderly := by
  have hanswers : b'.answers = b.answers := by
    unfold answers waiting
    rw [hreplies, hstreamer]
  have hby : ∀ sid, b'.admittedBy sid = b.admittedBy sid := fun sid => by
    unfold admittedBy
    rw [hadmitted]
  constructor
  · rw [hanswers]
    exact h.ids
  · rw [hanswers, hadmitted]
    exact h.known
  · rw [hanswers]
    exact h.turn
  · rw [hanswers, hlog]
    exact h.bound
  · rw [hadmitted, hnext]
    exact h.streamers
  · intro sid
    rw [hreplies, hby]
    exact h.told sid
  · rw [hanswers]
    exact h.ordered
  · rw [hstreamer]
    exact h.own
  · rw [hstreamer, hanswers]
    exact fun s hs sid hsid => (hby sid).symm ▸ h.all s hs sid hsid
  · rw [hstreamer, hanswers]
    exact h.alive

theorem advise_orderly (h : b.Orderly) (config : OptionalTimestampingConfig) :
    (exec (.advise config) b).Orderly := by
  let b' : Backend := exec (.advise config) b
  have hsame : b'.answers = b.answers := by
    simp only [answers, waiting, b', exec]
    cases b.streamer <;> rfl
  have hold : ∀ t ∈ b'.streamer, ∃ s ∈ b.streamer,
      t.id = s.id ∧ t.pendingAppends = s.pendingAppends ∧ t.sessions = s.sessions := by
    intro t ht
    obtain ⟨s, hs, rfl⟩ := Option.map_eq_some_iff.mp ht
    exact ⟨s, hs, rfl, rfl, rfl⟩
  refine ⟨hsame ▸ h.ids, hsame ▸ h.known, hsame ▸ h.turn, hsame ▸ h.bound, h.streamers, h.told,
    hsame ▸ h.ordered, fun t ht => ?_, fun t ht sid hsid => ?_, fun t ht sid hsid hp => ?_⟩
  · obtain ⟨s, hs, hid, hpending, -⟩ := hold t ht
    rw [hid, hpending]
    exact h.own s hs
  · obtain ⟨s, hs, hid, -, -⟩ := hold t ht
    change (ofSession sid b'.answers).map Prod.fst = _
    rw [hsame]
    exact h.all s hs sid (hid ▸ hsid)
  · obtain ⟨s, hs, hid, -, hsessions⟩ := hold t ht
    change ∀ a ∈ ofSession sid b'.answers, _
    rw [hsame]
    exact h.alive s hs sid (hid ▸ hsid) (hsessions ▸ hp)

theorem abandon_orderly (hinv : b.Inv) (h : b.Orderly) (hnone : b.streamer = none) :
    (exec .abandon b).Orderly := by
  refine ⟨h.ids, h.known, h.turn, fun x hx => ?_, h.streamers, h.told, h.ordered, h.own, h.all,
    h.alive⟩
  have hanswers : (exec .abandon b).answers = b.replies.map answerOf := by
    simp only [exec, answers, waiting, hnone, Option.elim, List.map_nil, List.append_nil]
  rw [hanswers] at hx
  obtain ⟨c, hc⟩ := mem_acks.mp hx
  obtain ⟨⟨call, reply⟩, hr, heq⟩ := List.mem_map.mp hc
  have htells := hinv.replies _ hr
  cases reply with
  | error e => cases heq
  | ok ack =>
    cases heq
    obtain ⟨before, records, after, hlog, -, -, -, -, hstop, -⟩ := htells.1
    change ack.stop.seqNum ≤ (logOf (b.history ++ [])).length
    rw [hstop, List.append_nil, hlog]
    simp only [List.length_append]
    omega

/-- **Every move keeps the order of the answers.** -/
theorem exec_orderly (hinv : b.Inv) (h : b.Orderly) (m : Move) (hadm : b.Admits m) :
    (exec m b).Orderly := by
  cases m with
  | receive call closed now => exact receive_orderly hinv h hadm closed now
  | advise config => exact advise_orderly h config
  | reconfigure config => exact h.congr rfl rfl rfl rfl rfl
  | persist =>
    change b.persist.Orderly
    unfold persist
    cases hp : b.pending with
    | nil => exact h
    | cons w pending =>
      refine h.congr rfl rfl rfl rfl ?_
      rw [hp]
      exact List.append_assoc _ _ _
  | complete => exact complete_orderly hinv h
  | fail => exact fail_orderly h
  | stop => exact h.drop b.panicked
  | abandon => exact abandon_orderly hinv h hadm
  | start => exact start_orderly hinv h hadm.1
  | trimList =>
    change b.trimList.Orderly
    unfold trimList
    split <;> exact h.congr rfl rfl rfl rfl rfl
  | trimScan =>
    change b.trimScan.Orderly
    unfold trimScan
    split <;> exact h.congr rfl rfl rfl rfl rfl
  | trimDelete =>
    change b.trimDelete.Orderly
    unfold trimDelete
    split <;> exact h.congr rfl rfl rfl rfl rfl
  | trimFinalize =>
    change b.trimFinalize.Orderly
    unfold trimFinalize
    split
    · split <;> exact h.congr rfl rfl rfl rfl rfl
    · exact h
  | trimStop => exact h.congr rfl rfl rfl rfl rfl

theorem orderly_of_initial (h : b.Initial) : b.Orderly := by
  obtain ⟨config, rfl⟩ := h
  have hnil : ∀ {α : Type} {P : α → Prop}, ∀ a ∈ ([] : List α), P a :=
    fun a ha => absurd ha List.not_mem_nil
  have hnone : ∀ {P : Streamer → Prop}, ∀ s ∈ (none : Option Streamer), P s :=
    fun s hs => absurd hs (Option.not_mem_none s)
  exact ⟨.nil, hnil, .nil, hnil, hnil, fun _ => List.prefix_refl _, fun _ => .nil, hnone, hnone,
    hnone⟩

theorem Reached.orderly (h : b.Reached) : b.Orderly :=
  (Reach.invariant (I := fun b => Inv b ∧ Orderly b)
    (fun _ h0 => ⟨inv_of_initial h0, orderly_of_initial h0⟩)
    (fun _ m hb hadm => ⟨exec_inv hb.1 m hadm, exec_orderly hb.1 hb.2 m hadm⟩) h).2

/-! ### What every run tells -/

end Backend

end S2
end Gitdot
