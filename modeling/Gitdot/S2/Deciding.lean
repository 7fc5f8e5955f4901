/-
# What the streamer decides

`Holds` relates a streamer to the writes that have been issued on its stream: its
next position is where their log ends, the fencing token and the trim point that it
has in memory are those that the log says, and each reply in waiting is justified by
the log as far as it waits. An append that is admitted is decided in one of three
ways (`Decision`): it is accepted, and a write is issued that follows the others; it
is refused at once, for what is durable; or the refusal waits for what it tells of.
No assertion fails on the way (`handleAppend_decided`, `onDurable_settled`).

Key definitions: `Streamer.Holds`, `Decision`, `Settled`.
Key theorems: `sequencedFrom_ok`, `sequenceRecords_ok`, `sequenceRecords_error`,
`fenceIs_applyCommands`, `trim_applyCommands`, `issue_accepted`,
`handleAppend_decided`, `onDurable_settled`.
-/
import Gitdot.S2.Log

namespace Gitdot
namespace S2

open Lib

/-! ### Positions of new records -/

section Sequencing

variable {mode : TimestampingMode} {uncapped : Bool} {now seqNum timestamp : ℕ}
  {rs : List AppendRecord} {out : List SequencedRecord} {e : AppendError} {s : Streamer}
  {input : AppendInput} {records : List SequencedRecord}

theorem asked_error {t : Option ℕ} (h : mode.asked now t = .error e) :
    e = .timestampMissing ∧ t = none := by
  cases mode <;> cases t <;> cases h
  exact ⟨rfl, rfl⟩

theorem sequencedFrom_cons (uncapped : Bool) (seqNum timestamp : ℕ) (rs : List AppendRecord)
    {r : AppendRecord} {t : ℕ} (h : mode.asked now r.timestamp = .ok t) :
    ∃ t', timestamp ≤ t' ∧ sequencedFrom mode uncapped now seqNum timestamp (r :: rs) =
      (sequencedFrom mode uncapped now (seqNum + 1) t' rs).map (⟨⟨seqNum, t'⟩, r.record⟩ :: ·) := by
  refine ⟨if (if !uncapped && decide (now < t) then now else t) < timestamp then timestamp
    else if !uncapped && decide (now < t) then now else t, ?_, ?_⟩
  · split_ifs <;> omega
  · simp only [sequencedFrom, h, bind, Except.bind]
    cases sequencedFrom mode uncapped now (seqNum + 1) _ rs <;> rfl

/-- The records of an append go on from the position before them. -/
theorem sequencedFrom_ok : ∀ {rs : List AppendRecord} {seqNum timestamp : ℕ}
    {out : List SequencedRecord}, sequencedFrom mode uncapped now seqNum timestamp rs = .ok out →
      Continues ⟨seqNum, timestamp⟩ out ∧
        out.map SequencedRecord.record = rs.map AppendRecord.record
  | [], _, _, _, h => by
    cases h
    exact ⟨trivial, rfl⟩
  | r :: rs, seqNum, timestamp, out, h => by
    cases ha : mode.asked now r.timestamp with
    | error e => simp [sequencedFrom, ha, bind, Except.bind] at h
    | ok t =>
      obtain ⟨t', ht, heq⟩ := sequencedFrom_cons uncapped seqNum timestamp rs ha
      rw [heq] at h
      cases hrest : sequencedFrom mode uncapped now (seqNum + 1) t' rs with
      | error e => simp [hrest, Except.map] at h
      | ok rest =>
        rw [hrest] at h
        cases h
        obtain ⟨hc, hm⟩ := sequencedFrom_ok hrest
        exact ⟨⟨rfl, ht, hc⟩, by simp [hm]⟩

theorem sequencedFrom_error : ∀ {rs : List AppendRecord} {seqNum timestamp : ℕ},
    sequencedFrom mode uncapped now seqNum timestamp rs = .error e →
      e = .timestampMissing ∧ ∃ r ∈ rs, r.timestamp = none
  | [], _, _, h => by cases h
  | r :: rs, seqNum, timestamp, h => by
    cases ha : mode.asked now r.timestamp with
    | error e' =>
      simp only [sequencedFrom, ha, bind, Except.bind, Except.error.injEq] at h
      subst h
      exact ⟨(asked_error ha).1, r, List.mem_cons_self, (asked_error ha).2⟩
    | ok t =>
      obtain ⟨t', -, heq⟩ := sequencedFrom_cons uncapped seqNum timestamp rs ha
      rw [heq] at h
      cases hrest : sequencedFrom mode uncapped now (seqNum + 1) t' rs with
      | ok rest => simp [hrest, Except.map] at h
      | error e' =>
        simp only [hrest, Except.map, Except.error.injEq] at h
        obtain ⟨he, q, hq, hn⟩ := sequencedFrom_error (h ▸ hrest)
        exact ⟨he, q, List.mem_cons_of_mem _ hq, hn⟩

theorem sequenceRecords_ok (h : s.sequenceRecords input now = .ok records) :
    Continues s.nextAssignablePos records ∧
      records.map SequencedRecord.record = input.records.records.map AppendRecord.record ∧
      (∀ token ∈ input.fencingToken, s.fencingToken.state = token) ∧
      ∀ n ∈ input.matchSeqNum, s.nextAssignablePos.seqNum = n := by
  unfold Streamer.sequenceRecords at h
  split_ifs at h with hfence hmatch
  obtain ⟨hc, hm⟩ := sequencedFrom_ok h
  refine ⟨hc, hm, fun token ht => ?_, fun n hn => ?_⟩
  · rw [Option.mem_def.mp ht, Option.any_some, decide_eq_true_eq, not_not] at hfence
    exact hfence.symm
  · rw [Option.mem_def.mp hn, Option.any_some, decide_eq_true_eq, not_not] at hmatch
    exact hmatch.symm

/-- A refusal says why. -/
theorem sequenceRecords_error (h : s.sequenceRecords input now = .error e) :
    (∃ expected, input.fencingToken = some expected ∧ expected ≠ s.fencingToken.state ∧
      e = .conditionFailed (.fencingTokenMismatch expected s.fencingToken.state
        s.fencingToken.appliedPoint)) ∨
    (∃ n, input.matchSeqNum = some n ∧ n ≠ s.nextAssignablePos.seqNum ∧
      e = .conditionFailed (.seqNumMismatch s.nextAssignablePos.seqNum n)) ∨
    e = .timestampMissing ∧ ∃ r ∈ input.records.records, r.timestamp = none := by
  unfold Streamer.sequenceRecords at h
  split_ifs at h with hfence hmatch
  · cases ht : input.fencingToken with
    | none => simp [ht] at hfence
    | some expected =>
      rw [ht, Option.any_some, decide_eq_true_eq] at hfence
      rw [ht, Except.error.injEq] at h
      exact .inl ⟨expected, rfl, hfence, h.symm⟩
  · cases hn : input.matchSeqNum with
    | none => simp [hn] at hmatch
    | some n =>
      rw [hn, Option.any_some, decide_eq_true_eq] at hmatch
      rw [hn, Except.error.injEq] at h
      exact .inr (.inl ⟨n, rfl, hmatch, h.symm⟩)
  · exact .inr (.inr (sequencedFrom_error h))

end Sequencing

/-! ### Commands -/

section Commands

variable {log : List SequencedRecord} {s : Streamer} {type : AppendType} {n : ℕ}
  {rs : List SequencedRecord} {pos : StreamPosition} {r : SequencedRecord}

/-- The streamer after one record. -/
def Streamer.applyRecord (s : Streamer) (type : AppendType) (r : SequencedRecord) : Streamer :=
  match r.record with
  | .command cmd => s.applyCommand r.position.seqNum type cmd
  | .envelope _ _ => s

theorem applyCommands_cons :
    Streamer.applyCommands type (r :: rs) s =
      Streamer.applyCommands type rs (s.applyRecord type r) :=
  rfl

/-- Only the fencing token and the trim point change. -/
theorem applyRecord_eq : s.applyRecord type r = { s with
    fencingToken := (s.applyRecord type r).fencingToken
    trimPoint := (s.applyRecord type r).trimPoint } := by
  unfold Streamer.applyRecord
  cases r.record with
  | envelope headers body => rfl
  | command cmd =>
    cases cmd with
    | fence token => rfl
    | trim p =>
      simp only [Streamer.applyCommand]
      split_ifs <;> rfl

theorem applyCommands_eq : ∀ {rs : List SequencedRecord} {s : Streamer},
    Streamer.applyCommands type rs s = { s with
      fencingToken := (Streamer.applyCommands type rs s).fencingToken
      trimPoint := (Streamer.applyCommands type rs s).trimPoint }
  | [], _ => rfl
  | r :: rs, s => by
    rw [applyCommands_cons]
    refine applyCommands_eq.trans ?_
    rw [applyRecord_eq]

/-- The token in memory is the log's, and was so where it says. -/
structure FenceIs (log : List SequencedRecord) (c : CommandState FencingToken) : Prop where
  le : c.appliedPoint ≤ log.length
  applied : fenceAfter .default (log.take c.appliedPoint) = c.state
  state : fenceAfter .default log = c.state

theorem FenceIs.record (h : FenceIs log s.fencingToken) (hr : r.position.seqNum = log.length) :
    FenceIs (log ++ [r]) (s.applyRecord type r).fencingToken ∧
      ((s.applyRecord type r).fencingToken = s.fencingToken ∨
        log.length < (s.applyRecord type r).fencingToken.appliedPoint) := by
  have hkept (hf : r.record.fenceOver s.fencingToken.state = s.fencingToken.state) :
      FenceIs (log ++ [r]) s.fencingToken := by
    refine ⟨by simp; exact Nat.le_succ_of_le h.le, ?_, ?_⟩
    · rw [List.take_append_of_le_length h.le]
      exact h.applied
    · rw [fenceAfter_append, h.state]
      exact hf
  unfold Streamer.applyRecord
  cases hrec : r.record with
  | envelope headers body => exact ⟨hkept (by rw [hrec]; rfl), .inl rfl⟩
  | command cmd =>
    cases cmd with
    | fence token =>
      have hall : fenceAfter .default (log ++ [r]) = token := by
        rw [fenceAfter_append]
        simp [fenceAfter, hrec, Record.fenceOver]
      refine ⟨⟨by simp [Streamer.applyCommand, hr], ?_, hall⟩, .inr (by
        simp [Streamer.applyCommand, hr])⟩
      simp only [Streamer.applyCommand, hr]
      rw [List.take_of_length_le (by simp)]
      exact hall
    | trim p =>
      simp only [Streamer.applyCommand]
      split_ifs <;> exact ⟨hkept (by rw [hrec]; rfl), .inl rfl⟩

theorem fenceIs_applyCommands (type : AppendType) : ∀ {rs log : List SequencedRecord}
    {s : Streamer} {pos : StreamPosition}, FenceIs log s.fencingToken → Continues pos rs →
      pos.seqNum = log.length →
      FenceIs (log ++ rs) (Streamer.applyCommands type rs s).fencingToken ∧
        ((Streamer.applyCommands type rs s).fencingToken = s.fencingToken ∨
          log.length < (Streamer.applyCommands type rs s).fencingToken.appliedPoint)
  | [], log, _, _, h, _, _ => ⟨(List.append_nil log).symm ▸ h, .inl rfl⟩
  | r :: rs, log, s, pos, h, ⟨hseq, _, hc⟩, hpos => by
    obtain ⟨h1, hcase⟩ := h.record (hseq.trans hpos)
    obtain ⟨h2, hcase'⟩ := fenceIs_applyCommands type h1 hc (by simp [hseq, hpos])
    rw [applyCommands_cons]
    refine ⟨by simpa using h2, ?_⟩
    rw [List.length_append, List.length_singleton] at hcase'
    rcases hcase' with heq | hlt
    · rw [heq]
      exact hcase
    · exact .inr (by omega)

/-- How records move the trim point. -/
structure TrimGrown (type : AppendType) (rs : List SequencedRecord) (c c' : CommandState ℕ) :
    Prop where
  le : c.state ≤ c'.state
  covers : ∀ r ∈ rs, ∀ p, r.record = .command (.trim p) →
    min p (type.trimMax (r.position.seqNum + 1)) ≤ c'.state
  asked : c' = c ∨ c.state < c'.state ∧ ∃ r ∈ rs, ∃ p, r.record = .command (.trim p) ∧
    c' = ⟨r.position.seqNum + 1, min p (type.trimMax (r.position.seqNum + 1))⟩

theorem trim_applyRecord : TrimGrown type [r] s.trimPoint (s.applyRecord type r).trimPoint := by
  have hkept (h : ∀ p, r.record = .command (.trim p) →
      min p (type.trimMax (r.position.seqNum + 1)) ≤ s.trimPoint.state) :
      TrimGrown type [r] s.trimPoint s.trimPoint :=
    ⟨Nat.le_refl _, fun q hq => List.mem_singleton.mp hq ▸ h, .inl rfl⟩
  unfold Streamer.applyRecord
  cases hrec : r.record with
  | envelope headers body => exact hkept fun p hp => by simp [hrec] at hp
  | command cmd =>
    cases cmd with
    | fence token => exact hkept fun p hp => by simp [hrec] at hp
    | trim p =>
      simp only [Streamer.applyCommand]
      split_ifs with hlt
      · refine ⟨Nat.le_of_lt hlt, fun q hq p' hp' => ?_, .inr ⟨hlt, r, List.mem_singleton_self r,
          p, hrec, rfl⟩⟩
        obtain rfl := List.mem_singleton.mp hq
        rw [hrec, Record.command.injEq, CommandRecord.trim.injEq] at hp'
        exact Nat.le_of_eq (by rw [hp'])
      · refine hkept fun p' hp' => ?_
        rw [hrec, Record.command.injEq, CommandRecord.trim.injEq] at hp'
        exact hp' ▸ Nat.le_of_not_lt hlt

theorem TrimGrown.cons {c c' c'' : CommandState ℕ} (h : TrimGrown type [r] c c')
    (h' : TrimGrown type rs c' c'') : TrimGrown type (r :: rs) c c'' := by
  refine ⟨h.le.trans h'.le, fun q hq p hp => ?_, ?_⟩
  · rcases List.mem_cons.mp hq with rfl | hq
    · exact (h.covers _ (List.mem_singleton_self _) p hp).trans h'.le
    · exact h'.covers q hq p hp
  · rcases h'.asked with heq | ⟨hlt, q, hq, hcmd⟩
    · rcases h.asked with heq' | ⟨hlt, q, hq, hcmd⟩
      · exact .inl (heq.trans heq')
      · exact .inr ⟨heq ▸ hlt, q, List.mem_cons.mpr (.inl (List.mem_singleton.mp hq)), heq ▸ hcmd⟩
    · exact .inr ⟨Nat.lt_of_le_of_lt h.le hlt, q, List.mem_cons_of_mem _ hq, hcmd⟩

theorem trim_applyCommands : ∀ {rs : List SequencedRecord} {s : Streamer},
    TrimGrown type rs s.trimPoint (Streamer.applyCommands type rs s).trimPoint
  | [], _ => ⟨Nat.le_refl _, nofun, .inl rfl⟩
  | _ :: _, _ => trim_applyRecord.cons trim_applyCommands

end Commands

/-! ### The streamer and what it has issued -/

/-- A reply in waiting: the log justifies it, as far as it waits, and it waits for
no more than what its session has been promised, unless its session is over. -/
structure Waits (log : List SequencedRecord) (s : Streamer) (b : BlockedReply) : Prop where
  stable : s.stablePos.seqNum < b.durabilityDependency
  le : b.durabilityDependency ≤ log.length
  justified : Justified log b.tx.input b.reply
  enough : dependency b.reply ≤ b.durabilityDependency
  session : ∀ id ∈ b.tx.session, (s.sessions id.number).poisoned = true ∨
    b.durabilityDependency ≤ (s.sessions id.number).lastAckEnd

/-- The trim point in memory is one that has been asked for, and a terminal trim is the
last of what has been issued. -/
structure TrimIs (issued : List Write) (c : CommandState ℕ) : Prop where
  le : c.state ≤ trimOf issued
  max : trimOf issued = seqNumMax → c.state = seqNumMax
  applied : c.appliedPoint ≤ (logOf issued).length
  last : c.state = seqNumMax → c.appliedPoint = (logOf issued).length

/-- The streamer after the writes that have been issued. -/
structure Streamer.Holds (s : Streamer) (issued : List Write) : Prop where
  next : s.nextAssignablePos = endFrom .min (logOf issued)
  fence : FenceIs (logOf issued) s.fencingToken
  trim : TrimIs issued s.trimPoint
  futs : ∃ done, issued = done ++ s.appendFuts ∧ s.stablePos = endFrom .min (logOf done)
  no_futs : s.pendingAppends.nextAckPos = none → s.appendFuts = []
  ordered : Waiting.Ordered BlockedReply.durabilityDependency s.pendingAppends.queue
  queue : ∀ b ∈ s.pendingAppends.queue, Waits (logOf issued) s b
  sessions : ∀ n, (s.sessions n).lastAckEnd ≤ (logOf issued).length

section Holds

variable {s : Streamer} {issued : List Write} {call : Call} {closed : Bool} {t : Ticket}

theorem Streamer.Holds.stable_le (h : s.Holds issued) (hi : Issued issued) :
    s.stablePos.seqNum ≤ (logOf issued).length := by
  obtain ⟨done, rfl, hs⟩ := h.futs
  rw [hs, hi.left.length_eq, logOf_append, List.length_append]
  omega

theorem Streamer.Holds.next_eq (h : s.Holds issued) (hi : Issued issued) :
    s.nextAssignablePos.seqNum = (logOf issued).length := by
  rw [h.next, hi.length_eq]

/-- A streamer that is told of another configuration. -/
theorem Streamer.Holds.advise (h : s.Holds issued) (config : OptionalTimestampingConfig) :
    Streamer.Holds { s with config := config } issued where
  next := h.next
  fence := h.fence
  trim := h.trim
  futs := h.futs
  no_futs := h.no_futs
  ordered := h.ordered
  queue := fun b hb =>
    have hb' := h.queue b hb
    ⟨hb'.stable, hb'.le, hb'.justified, hb'.enough, hb'.session⟩
  sessions := h.sessions

/-- An append that is admitted comes before a terminal trim, and its session is not over. -/
theorem ticket_eq_some (h : s.ticket closed call = some t) :
    s.trimPoint.state < seqNumMax ∧ t = ⟨call, s.sessionOf call⟩ ∧
      ∀ id ∈ call.session, (s.sessions id.number).poisoned = false := by
  unfold Streamer.ticket at h
  split_ifs at h with hopen
  unfold admitAppend at h
  split_ifs at h
  refine ⟨hopen, ?_⟩
  cases hs : call.session with
  | none =>
    simp only [Streamer.sessionOf, hs, Option.map_none, Option.some.injEq] at h ⊢
    exact ⟨h.symm, nofun⟩
  | some id =>
    simp only [Streamer.sessionOf, hs, Option.map_some] at h ⊢
    split_ifs at h with hp
    refine ⟨(Option.some.inj h).symm, fun id' hid => ?_⟩
    rw [← Option.some.inj hid]
    simpa using hp

end Holds

/-! ### Decisions -/

/-- What becomes of an append. -/
inductive Decision (s : Streamer) (log : List SequencedRecord) (call : Call)
    (o : Streamer.Outcome) : Prop where
  | accepted (range : AckRange) (replies : o.replies = [])
      (queue : o.streamer.pendingAppends.queue =
        s.pendingAppends.queue ++ [⟨.ok range, range.stop.seqNum, call⟩])
      (start : range.start.seqNum = log.length)
  | refused (e : AppendError) (replies : o.replies = [(call, .error e)])
      (queue : o.streamer.pendingAppends.queue = s.pendingAppends.queue)
      (told : e.Told log call.input) (durable : e.durabilityDependency ≤ s.stablePos.seqNum)
      (session : ∀ id ∈ call.session, (o.streamer.sessions id.number).poisoned = true ∧
        (s.sessions id.number).lastAckEnd ≤ s.stablePos.seqNum)
  | delayed (e : AppendError) (point : ℕ) (replies : o.replies = [])
      (queue : o.streamer.pendingAppends.queue = Waiting.enqueue BlockedReply.durabilityDependency
        ⟨.error e, point, call⟩ s.pendingAppends.queue)
      (session : ∀ id ∈ call.session, (o.streamer.sessions id.number).poisoned = true ∧
        (s.sessions id.number).lastAckEnd ≤ point)

structure Decided (s : Streamer) (issued : List Write) (call : Call) (o : Streamer.Outcome) :
    Prop where
  id : o.streamer.id = s.id
  futs : o.streamer.appendFuts = s.appendFuts ++ o.writes
  stable : o.streamer.stablePos = s.stablePos
  follows : Issued (issued ++ o.writes)
  holds : o.streamer.Holds (issued ++ o.writes)
  trim : o.streamer.trimPoint.state = trimRow s.trimPoint.state o.writes
  rising : Rising s.trimPoint.state o.writes
  poisoned : ∀ n, (s.sessions n).poisoned = true → (o.streamer.sessions n).poisoned = true
  decision : Decision s (logOf issued) call o

section Decisions

variable {s : Streamer} {issued : List Write} {call : Call} {closed : Bool} {t : Ticket}
  {records : List SequencedRecord} {st : Option SessionState} {n : ℕ} {id : SessionId}

theorem setSession_eq : s.setSession call st = { s with
    sessions := (s.setSession call st).sessions } := by
  unfold Streamer.setSession
  cases st with
  | none => rfl
  | some x => cases call.session <;> rfl

@[simp] theorem setSession_id : (s.setSession call st).id = s.id := by rw [setSession_eq]

@[simp] theorem setSession_fencingToken :
    (s.setSession call st).fencingToken = s.fencingToken := by rw [setSession_eq]

@[simp] theorem setSession_trimPoint : (s.setSession call st).trimPoint = s.trimPoint := by
  rw [setSession_eq]

@[simp] theorem setSession_appendFuts : (s.setSession call st).appendFuts = s.appendFuts := by
  rw [setSession_eq]

@[simp] theorem setSession_pendingAppends :
    (s.setSession call st).pendingAppends = s.pendingAppends := by rw [setSession_eq]

@[simp] theorem setSession_stablePos : (s.setSession call st).stablePos = s.stablePos := by
  rw [setSession_eq]

/-- The session of the call is the only one that changes. -/
theorem sessions_setSession (call : Call) {s s' : Streamer} (hs : s'.sessions = s.sessions)
    (f : SessionState → SessionState) (n : ℕ) :
    ((s'.setSession call ((s.sessionOf call).map f)).sessions n = s.sessions n ∧
        ∀ id ∈ call.session, id.number ≠ n) ∨
      (∃ id ∈ call.session, id.number = n) ∧
        (s'.setSession call ((s.sessionOf call).map f)).sessions n = f (s.sessions n) := by
  unfold Streamer.setSession Streamer.sessionOf
  cases hc : call.session with
  | none => exact .inl ⟨congrFun hs n, nofun⟩
  | some id =>
    simp only [Option.map_some]
    by_cases hn : n = id.number
    · exact .inr ⟨⟨id, rfl, hn.symm⟩, by simp [hn]⟩
    · refine .inl ⟨by simp [hn, hs], fun id' hid => ?_⟩
      rw [← Option.some.inj hid]
      exact fun h => hn h.symm

theorem unpoisoned_sessionOf (h : ∀ id ∈ call.session, (s.sessions id.number).poisoned = false) :
    ∀ x ∈ s.sessionOf call, x.poisoned = false := by
  intro x hx
  obtain ⟨id, hid, rfl⟩ := Option.map_eq_some_iff.mp hx
  exact h id hid

theorem accept_eq (call : Call) (p : PendingAppends) (range : AckRange)
    (hst : ∀ x ∈ st, x.poisoned = false)
    (hnext : ∀ prev ∈ p.nextAckPos, range.start.seqNum = prev.seqNum ∧
      prev.timestamp ≤ range.start.timestamp)
    (hqueue : ∀ b ∈ p.queue, b.durabilityDependency < range.stop.seqNum) :
    p.accept ⟨call, st⟩ range =
      some (⟨p.queue ++ [⟨.ok range, range.stop.seqNum, call⟩], some range.stop⟩,
        st.map fun x => { x with lastAckEnd := range.stop.seqNum }) := by
  have h1 : (p.nextAckPos.all fun prev => decide (range.start.seqNum = prev.seqNum) &&
      decide (prev.timestamp ≤ range.start.timestamp)) = true := by
    cases hp : p.nextAckPos with
    | none => rfl
    | some prev => simpa using hnext prev hp
  have h2 : (p.queue.getLast?.all fun prev =>
      decide (prev.durabilityDependency < range.stop.seqNum)) = true := by
    cases hq : p.queue.getLast? with
    | none => rfl
    | some prev => simpa using hqueue prev (List.mem_of_getLast? hq)
  have h3 : (⟨call, st⟩ : Ticket).accept range = some (⟨.ok range, range.stop.seqNum, call⟩,
      st.map fun x => { x with lastAckEnd := range.stop.seqNum }) := by
    unfold Ticket.accept
    cases hs : st with
    | none => rfl
    | some x => simp [hst x hs]
  unfold PendingAppends.accept
  rw [if_pos h1, h3]
  simp only [bind, Option.bind, h2, if_true]

theorem reject_eq (call : Call) (p : PendingAppends) (e : AppendError) (stablePos : StreamPosition)
    (hst : ∀ x ∈ st, x.poisoned = false) :
    ∃ point, e.durabilityDependency ≤ point ∧ (∀ x ∈ st, x.lastAckEnd ≤ point) ∧
      (∀ n, e.durabilityDependency ≤ n → (∀ x ∈ st, x.lastAckEnd ≤ n) → point ≤ n) ∧
      p.reject ⟨call, st⟩ e stablePos =
        let session := st.map fun x => { x with poisoned := true }
        if point ≤ stablePos.seqNum then some (p, session, [(call, .error e)])
        else some (⟨Waiting.enqueue BlockedReply.durabilityDependency ⟨.error e, point, call⟩
          p.queue, p.nextAckPos⟩, session, []) := by
  cases hs : st with
  | none =>
    refine ⟨e.durabilityDependency, Nat.le_refl _, nofun, fun n hn _ => hn, ?_⟩
    simp [PendingAppends.reject, Ticket.reject, bind, Option.bind]
  | some x =>
    refine ⟨max e.durabilityDependency x.lastAckEnd, Nat.le_max_left _ _, fun y hy => ?_,
      fun n hn hx => Nat.max_le.mpr ⟨hn, hx x rfl⟩, ?_⟩
    · exact Option.some.inj hy ▸ Nat.le_max_right _ _
    · simp [PendingAppends.reject, Ticket.reject, hst x hs, bind, Option.bind]

/-- The write of records that have been applied. -/
theorem dbWriteRecords_fence {log : List SequencedRecord} {s' : Streamer} {stop : ℕ}
    (h : FenceIs log s.fencingToken) (h' : FenceIs (log ++ records) s'.fencingToken)
    (hcase : s'.fencingToken = s.fencingToken ∨ log.length < s'.fencingToken.appliedPoint)
    (hstop : stop = (log ++ records).length) :
    (s'.dbWriteRecords records log.length stop).fencingToken.getD (fenceAfter .default log) =
      fenceAfter .default (log ++ records) := by
  unfold Streamer.dbWriteRecords CommandState.isAppliedIn
  simp only [Bool.and_eq_true, decide_eq_true_eq]
  split_ifs with happlied
  · exact h'.state.symm
  · rcases hcase with heq | hlt
    · rw [Option.getD_none, h.state, h'.state, heq]
    · exact absurd ⟨hlt, hstop ▸ h'.le⟩ happlied

theorem dbWriteRecords_trim {log : List SequencedRecord} {s' : Streamer} (stop : ℕ)
    {type : AppendType} (hle : s.trimPoint.appliedPoint ≤ log.length)
    (h : TrimGrown type records s.trimPoint s'.trimPoint)
    (hseq : ∀ r ∈ records, log.length ≤ r.position.seqNum ∧ r.position.seqNum < stop) :
    s'.trimPoint = s.trimPoint ∧ (s'.dbWriteRecords records log.length stop).trimPoint = none ∨
      (s'.dbWriteRecords records log.length stop).trimPoint = some s'.trimPoint.state ∧
        s.trimPoint.state < s'.trimPoint.state ∧ ∃ r ∈ records, ∃ p,
          r.record = .command (.trim p) ∧ s'.trimPoint =
            ⟨r.position.seqNum + 1, min p (type.trimMax (r.position.seqNum + 1))⟩ := by
  unfold Streamer.dbWriteRecords CommandState.isAppliedIn
  simp only [Bool.and_eq_true, decide_eq_true_eq, ne_eq, ite_eq_left_iff, ite_eq_right_iff]
  rcases h.asked with heq | ⟨hlt, r, hr, p, hp, heq⟩
  · refine .inl ⟨heq, ?_⟩
    rw [heq]
    rintro ⟨⟨hlt, -⟩, -⟩
    omega
  · refine .inr ⟨fun hn => absurd ?_ hn, hlt, r, hr, p, hp, heq⟩
    obtain ⟨hlo, hhi⟩ := hseq r hr
    have happlied : s'.trimPoint.appliedPoint = r.position.seqNum + 1 := by rw [heq]
    omega

/-- The records of an append, where they are issued. -/
structure Issuable (s : Streamer) (issued : List Write) (call : Call)
    (records : List SequencedRecord) : Prop where
  ne_nil : records ≠ []
  continues : Continues s.nextAssignablePos records
  terminal : call.appendType = .terminal →
    records.map SequencedRecord.record = [.command (.trim seqNumMax)]
  room : (logOf issued).length + records.length < seqNumMax
  small : ∀ r ∈ records, r.record.meteredSize ≤ recordBatchMaxBytes
  records : records.map SequencedRecord.record = call.input.records.records.map AppendRecord.record
  token : ∀ token ∈ call.input.fencingToken, s.fencingToken.state = token
  seqNum : ∀ n ∈ call.input.matchSeqNum, s.nextAssignablePos.seqNum = n

theorem Issuable.bounds (h : s.Holds issued) (hi : Issued issued)
    (hr : Issuable s issued call records) : ∀ r ∈ records,
      (logOf issued).length ≤ r.position.seqNum ∧
        r.position.seqNum < (logOf issued).length + records.length := by
  intro r hmem
  have := hr.continues.seqNum_lt hmem
  rwa [h.next_eq hi] at this

/-- A trim command trims what is not after it, or is a terminal trim. -/
theorem Issuable.trimMax {r : SequencedRecord} {p : ℕ} (hr : Issuable s issued call records)
    (hmem : r ∈ records) (hp : r.record = .command (.trim p)) :
    min p (call.appendType.trimMax (r.position.seqNum + 1)) ≤ r.position.seqNum + 1 ∨
      min p (call.appendType.trimMax (r.position.seqNum + 1)) = seqNumMax ∧ records = [r] := by
  cases htype : call.appendType with
  | regular => exact .inl (Nat.min_le_right _ _)
  | terminal =>
    have hrec := hr.terminal htype
    obtain ⟨r', rfl⟩ := List.length_eq_one_iff.mp (by simpa using congrArg List.length hrec)
    obtain rfl := List.mem_singleton.mp hmem
    rw [List.map_singleton, List.singleton_inj, hp, Record.command.injEq,
      CommandRecord.trim.injEq] at hrec
    exact .inr ⟨by rw [hrec]; exact Nat.min_self _, rfl⟩

/-- **A write follows those before it**, and so does its trim point. -/
theorem follows_write (h : s.Holds issued) (hi : Issued issued)
    (hopen : s.trimPoint.state < seqNumMax) (hr : Issuable s issued call records) {stop : ℕ}
    (hstop : stop = (logOf issued ++ records).length) :
    let applied := Streamer.applyCommands call.appendType records s
    let write := applied.dbWriteRecords records (logOf issued).length stop
    Follows issued write ∧ TrimIs (issued ++ [write]) applied.trimPoint ∧
      applied.trimPoint.state = write.trimPoint.getD s.trimPoint.state ∧
      ∀ t ∈ write.trimPoint, s.trimPoint.state < t := by
  intro applied write
  have hbounds := hr.bounds h hi
  have hroom := hr.room
  have hlen : (logOf (issued ++ [write])).length = (logOf issued).length + records.length := by
    simp [write, Streamer.dbWriteRecords]
  have htrimOpen : trimOf issued < seqNumMax := by
    refine Nat.lt_of_le_of_ne ?_ fun hmax => Nat.ne_of_lt hopen (h.trim.max hmax)
    rcases hi.trimOf_le with hle | hmax
    · omega
    · exact Nat.le_of_eq hmax
  obtain ⟨hfence, hfcase⟩ := fenceIs_applyCommands call.appendType h.fence hr.continues
    (h.next_eq hi)
  have hgrown : TrimGrown call.appendType records s.trimPoint applied.trimPoint :=
    trim_applyCommands
  have hcovers : ∀ c ∈ records, ∀ p, c.record = .command (.trim p) →
      min p (c.position.seqNum + 1) ≤ applied.trimPoint.state := by
    intro c hc p hp
    have hmax : c.position.seqNum + 1 ≤ call.appendType.trimMax (c.position.seqNum + 1) := by
      have := hbounds c hc
      cases call.appendType
      · exact Nat.le_refl _
      · exact Nat.le_of_lt (by simp only [AppendType.trimMax]; omega)
    have := hgrown.covers c hc p hp
    omega
  have htrim := dbWriteRecords_trim stop h.trim.applied hgrown fun r hmem => by
    have := hbounds r hmem
    simp only [hstop, List.length_append]
    exact this
  have hfollows (hcov : ∀ c ∈ records, ∀ p, c.record = .command (.trim p) →
        min p (c.position.seqNum + 1) ≤ max (trimOf issued) (write.trimPoint.getD 0))
      (hasked : ∀ t, write.trimPoint = some t → ∃ c ∈ records, ∃ p,
        c.record = .command (.trim p) ∧ t ≤ p ∧
          (t ≤ c.position.seqNum + 1 ∨ t = seqNumMax ∧ records = [c])) : Follows issued write :=
    ⟨hr.ne_nil, h.next ▸ hr.continues, dbWriteRecords_fence h.fence hfence hfcase hstop,
      hr.small, hroom, htrimOpen, hcov, hasked⟩
  rcases htrim with ⟨heq, hnone⟩ | ⟨hsome, hlt, r, hmem, p, hp, heq⟩
  · -- no trim command moves the trim point
    have hle : applied.trimPoint.state ≤ trimOf issued := heq ▸ h.trim.le
    refine ⟨hfollows (fun c hc p hp => ?_) fun t ht => ?_, ⟨?_, ?_, ?_, ?_⟩, ?_, ?_⟩
    · exact ((hcovers c hc p hp).trans hle).trans (Nat.le_max_left _ _)
    · exact absurd (hnone.symm.trans ht) (Option.some_ne_none t).symm
    · rw [trimOf_snoc]
      exact hle.trans (Nat.le_max_left _ _)
    · rw [trimOf_snoc, hnone, Option.getD_none, Nat.max_zero]
      exact fun hmax => absurd hmax (Nat.ne_of_lt htrimOpen)
    · rw [hlen, heq]
      exact Nat.le_add_right_of_le h.trim.applied
    · exact fun hmax => absurd (heq ▸ hmax) (Nat.ne_of_lt hopen)
    · rw [hnone, heq, Option.getD_none]
    · intro t ht
      exact absurd (hnone.symm.trans ht) (Option.some_ne_none t).symm
  · -- the trim command `r` moves it last
    have hr' := hr.trimMax hmem hp
    have hb := hbounds r hmem
    refine ⟨hfollows (fun c hc p hp => ?_) fun t ht => ?_, ⟨?_, ?_, ?_, ?_⟩, ?_, ?_⟩
    · rw [hsome]
      exact (hcovers c hc p hp).trans (Nat.le_max_right _ _)
    · obtain rfl : applied.trimPoint.state = t := Option.some.inj (hsome.symm.trans ht)
      rw [heq]
      exact ⟨r, hmem, p, hp, Nat.min_le_left _ _, hr'⟩
    · rw [trimOf_snoc, hsome]
      exact Nat.le_max_right _ _
    · rw [trimOf_snoc, hsome, Option.getD_some]
      omega
    · rw [hlen, heq]
      show r.position.seqNum + 1 ≤ _
      omega
    · intro hmax
      rw [heq] at hmax
      rcases hr' with hle | ⟨-, hone⟩
      · have : seqNumMax ≤ r.position.seqNum + 1 := (Nat.le_of_eq hmax.symm).trans hle
        omega
      · rw [hone, List.length_singleton] at hb
        rw [hlen, heq, hone]
        show r.position.seqNum + 1 = _ + 1
        omega
    · rw [hsome, Option.getD_some]
    · intro t ht
      obtain rfl : applied.trimPoint.state = t := Option.some.inj (hsome.symm.trans ht)
      exact hlt

theorem Waits.mono {log : List SequencedRecord} {s' : Streamer} {b : BlockedReply}
    (h : Waits log s b) (more : List SequencedRecord) (hstable : s'.stablePos = s.stablePos)
    (hs : ∀ n, ((s.sessions n).poisoned = true → (s'.sessions n).poisoned = true) ∧
      (s.sessions n).lastAckEnd ≤ (s'.sessions n).lastAckEnd) : Waits (log ++ more) s' b where
  stable := hstable ▸ h.stable
  le := h.le.trans (by simp)
  justified := h.justified.append
  enough := h.enough
  session := fun id hid => (h.session id hid).imp (hs _).1 fun hle => hle.trans (hs _).2

/-- What an acknowledgement will say. -/
theorem Issuable.appended {range : AckRange} (h : s.Holds issued) (hi : Issued issued)
    (hr : Issuable s issued call records)
    (hstart : records.head?.map SequencedRecord.position = some range.start)
    (hstop : range.stop = endFrom s.nextAssignablePos records) :
    Appended (logOf issued ++ records) call.input range := by
  refine ⟨logOf issued, records, [], by simp, hr.records, hstart, ?_, ?_, ?_, ?_, ?_⟩
  · rw [hstop]
    exact nextPos_eq_some _ hr.ne_nil
  · obtain ⟨r, hmem, heq⟩ := Option.map_eq_some_iff.mp hstart
    obtain ⟨rest, rfl⟩ := List.head?_eq_some_iff.mp hmem
    rw [← heq, hr.continues.1, h.next_eq hi]
  · rw [hstop, hr.continues.seqNum_endFrom, h.next_eq hi, List.length_append]
  · intro token ht
    rw [h.fence.state]
    exact hr.token token ht
  · intro n hn
    rw [← h.next_eq hi]
    exact hr.seqNum n hn

/-- The streamer after it has issued a write. -/
theorem Streamer.Holds.snoc {s' : Streamer} {w : Write} {b : BlockedReply} {stop : StreamPosition}
    (h : s.Holds issued) (hfence : FenceIs (logOf (issued ++ [w])) s'.fencingToken)
    (htrim : TrimIs (issued ++ [w]) s'.trimPoint)
    (hfuts : s'.appendFuts = s.appendFuts ++ [w]) (hstable : s'.stablePos = s.stablePos)
    (hpending : s'.pendingAppends = ⟨s.pendingAppends.queue ++ [b], some stop⟩)
    (hstop : stop = endFrom .min (logOf (issued ++ [w])))
    (hsessions : ∀ n, ((s.sessions n).poisoned = true → (s'.sessions n).poisoned = true) ∧
      (s.sessions n).lastAckEnd ≤ (s'.sessions n).lastAckEnd ∧
      (s'.sessions n).lastAckEnd ≤ (logOf (issued ++ [w])).length)
    (hb : Waits (logOf (issued ++ [w])) s' b)
    (hlast : (logOf issued).length < b.durabilityDependency) : s'.Holds (issued ++ [w]) where
  next := by rw [Streamer.nextAssignablePos, hpending, Option.getD_some, hstop]
  fence := hfence
  trim := htrim
  futs := by
    obtain ⟨done, hdone, hs⟩ := h.futs
    exact ⟨done, by rw [hdone, hfuts, List.append_assoc], hstable.trans hs⟩
  no_futs := fun hn => by
    rw [hpending] at hn
    cases hn
  ordered := by
    rw [hpending]
    exact h.ordered.snoc fun c hc => (h.queue c hc).le.trans (Nat.le_of_lt hlast)
  queue := by
    intro c hc
    rw [hpending] at hc
    rcases List.mem_append.mp hc with hc | hc
    · rw [logOf_append]
      exact (h.queue c hc).mono _ hstable fun n => ⟨(hsessions n).1, (hsessions n).2.1⟩
    · exact List.mem_singleton.mp hc ▸ hb
  sessions := fun n => (hsessions n).2.2

/-- **An append that meets its conditions** is accepted, and no assertion fails. -/
theorem issue_decided (h : s.Holds issued) (hi : Issued issued)
    (ht : s.ticket closed call = some t) (hr : Issuable s issued call records) :
    ∃ o, s.issue t records = some o ∧ Decided s issued call o := by
  obtain ⟨hopen, rfl, hlive⟩ := ticket_eq_some ht
  obtain ⟨first, rest, hcons⟩ := List.exists_cons_of_ne_nil hr.ne_nil
  have hhead : records.head? = some first := by rw [hcons]; rfl
  have hfirst : first.position.seqNum = (logOf issued).length := by
    have := hr.continues
    rw [hcons] at this
    rw [this.1, h.next_eq hi]
  have hstop := nextPos_eq_some s.nextAssignablePos hr.ne_nil
  have hstopSeq : (endFrom s.nextAssignablePos records).seqNum =
      (logOf issued ++ records).length := by
    rw [hr.continues.seqNum_endFrom, h.next_eq hi, List.length_append]
  have hlt : (logOf issued).length < (endFrom s.nextAssignablePos records).seqNum := by
    rw [hstopSeq, hcons]
    simp
  have hnext : ∀ prev ∈ s.pendingAppends.nextAckPos,
      first.position.seqNum = prev.seqNum ∧ prev.timestamp ≤ first.position.timestamp := by
    intro prev hp
    have := hr.continues
    rw [hcons, Streamer.nextAssignablePos, Option.mem_def.mp hp] at this
    exact ⟨this.1, this.2.1⟩
  have hacc := accept_eq call s.pendingAppends
    ⟨first.position, endFrom s.nextAssignablePos records⟩ (unpoisoned_sessionOf hlive) hnext
    fun b hb => Nat.lt_of_le_of_lt (h.queue b hb).le hlt
  obtain ⟨hfollows, htrim, hstate, hrising⟩ := follows_write h hi hopen hr hstopSeq
  have hterm : ¬ (call.appendType = .terminal ∧
      records.map SequencedRecord.record ≠ [.command (.trim seqNumMax)]) :=
    fun hn => hn.2 (hr.terminal hn.1)
  let applied := Streamer.applyCommands call.appendType records s
  let stop := endFrom s.nextAssignablePos records
  let write := applied.dbWriteRecords records (logOf issued).length stop.seqNum
  let pending : PendingAppends :=
    ⟨s.pendingAppends.queue ++ [⟨.ok ⟨first.position, stop⟩, stop.seqNum, call⟩], some stop⟩
  let before : Streamer :=
    { applied with appendFuts := s.appendFuts ++ [write], pendingAppends := pending }
  have happlied : applied = { s with
      fencingToken := applied.fencingToken, trimPoint := applied.trimPoint } := applyCommands_eq
  have hbefore : before.sessions = s.sessions := by
    show applied.sessions = s.sessions
    rw [happlied]
  let s' := before.setSession call
    ((s.sessionOf call).map fun x => { x with lastAckEnd := stop.seqNum })
  have hlog : logOf (issued ++ [write]) = logOf issued ++ records := by
    simp [write, Streamer.dbWriteRecords]
  have hsessions : ∀ n, ((s.sessions n).poisoned = true → (s'.sessions n).poisoned = true) ∧
      (s.sessions n).lastAckEnd ≤ (s'.sessions n).lastAckEnd ∧
      (s'.sessions n).lastAckEnd ≤ (logOf (issued ++ [write])).length := by
    intro n
    have hle := h.sessions n
    rw [hlog, ← hstopSeq]
    rcases sessions_setSession call hbefore (fun x => { x with lastAckEnd := stop.seqNum }) n
      with ⟨heq, -⟩ | ⟨-, heq⟩
    · rw [show s'.sessions n = s.sessions n from heq]
      exact ⟨id, Nat.le_refl _, hle.trans (Nat.le_of_lt hlt)⟩
    · rw [show s'.sessions n = { s.sessions n with lastAckEnd := stop.seqNum } from heq]
      exact ⟨id, hle.trans (Nat.le_of_lt hlt), Nat.le_refl _⟩
  have hstable : s'.stablePos = s.stablePos := by
    rw [setSession_stablePos]
    show applied.stablePos = s.stablePos
    rw [happlied]
  have hwaits : Waits (logOf (issued ++ [write])) s'
      ⟨.ok ⟨first.position, stop⟩, stop.seqNum, call⟩ := by
    refine ⟨?_, ?_, ?_, Nat.le_refl _, fun id hid => .inr ?_⟩
    · rw [hstable]
      exact Nat.lt_of_le_of_lt (h.stable_le hi) hlt
    · rw [hlog, ← hstopSeq]
    · rw [hlog]
      exact hr.appended h hi (by rw [hhead]; rfl) rfl
    · rcases sessions_setSession call hbefore (fun x => { x with lastAckEnd := stop.seqNum })
        id.number with ⟨-, hne⟩ | ⟨-, heq⟩
      · exact absurd rfl (hne id hid)
      · rw [show s'.sessions id.number = _ from heq]
  refine ⟨⟨s', [], [write]⟩, ?_, ?_⟩
  · unfold Streamer.issue
    rw [if_neg hterm, hhead, hstop]
    simp only [bind, Option.bind, hacc, hfirst]
    rfl
  · have hfence := (fenceIs_applyCommands call.appendType h.fence hr.continues (h.next_eq hi)).1
    have hpending : s'.pendingAppends = pending := setSession_pendingAppends
    have hfuts : s'.appendFuts = s.appendFuts ++ [write] := setSession_appendFuts
    have hid : s'.id = s.id := by
      rw [setSession_id]
      show applied.id = s.id
      rw [happlied]
    refine ⟨hid, hfuts, hstable, hi.snoc hfollows, h.snoc ?_ ?_ hfuts hstable hpending ?_ hsessions
      hwaits hlt, ?_, ⟨hrising, trivial⟩, fun n => (hsessions n).1,
      .accepted ⟨first.position, stop⟩ rfl (congrArg PendingAppends.queue hpending) hfirst⟩
    · rw [hlog, setSession_fencingToken]
      exact hfence
    · rw [setSession_trimPoint]
      exact htrim
    · rw [hlog, endFrom_append, ← h.next]
    · rw [setSession_trimPoint]
      exact hstate

/-- A refusal tells of what has been issued. -/
theorem told_of_error {now : ℕ} {e : AppendError} (h : s.Holds issued) (hi : Issued issued)
    (he : s.sequenceRecords call.input now = .error e) :
    e.Told (logOf issued) call.input ∧ e.durabilityDependency ≤ (logOf issued).length := by
  rcases sequenceRecords_error he with ⟨expected, ht, hne, rfl⟩ | ⟨n, hn, hne, rfl⟩ | ⟨rfl, hr⟩
  · exact ⟨⟨ht, hne, h.fence.le, h.fence.applied⟩, h.fence.le⟩
  · have hle := Nat.le_of_eq (h.next_eq hi)
    exact ⟨⟨hn, hne, hle⟩, hle⟩
  · exact ⟨hr, Nat.zero_le _⟩

/-- The streamer after it has refused an append, where `p` are the replies in waiting. -/
def Streamer.refuse (s : Streamer) (call : Call) (p : PendingAppends) : Streamer :=
  Streamer.setSession { s with pendingAppends := p } call
    ((s.sessionOf call).map fun x => { x with poisoned := true })

/-- The session of a call that is refused is over. -/
theorem sessions_refuse (call : Call) (p : PendingAppends) :
    (∀ id ∈ call.session, ((s.refuse call p).sessions id.number).poisoned = true) ∧
      ∀ n, ((s.sessions n).poisoned = true → ((s.refuse call p).sessions n).poisoned = true) ∧
        ((s.refuse call p).sessions n).lastAckEnd = (s.sessions n).lastAckEnd := by
  let before : Streamer := { s with pendingAppends := p }
  have hbefore : before.sessions = s.sessions := rfl
  have hcases := sessions_setSession call hbefore fun x => { x with poisoned := true }
  refine ⟨fun id hid => ?_, fun n => ?_⟩
  · rcases hcases id.number with ⟨-, hne⟩ | ⟨-, heq⟩
    · exact absurd rfl (hne id hid)
    · rw [Streamer.refuse, heq]
  · rcases hcases n with ⟨heq, -⟩ | ⟨-, heq⟩
    · rw [Streamer.refuse, heq]
      exact ⟨id, rfl⟩
    · rw [Streamer.refuse, heq]
      exact ⟨fun _ => rfl, rfl⟩

theorem refuse_holds {p : PendingAppends} {e : AppendError} {point : ℕ} (h : s.Holds issued)
    (hnext : p.nextAckPos = s.pendingAppends.nextAckPos)
    (hordered : Waiting.Ordered BlockedReply.durabilityDependency p.queue)
    (hqueue : ∀ b ∈ p.queue, b ∈ s.pendingAppends.queue ∨
      b = ⟨.error e, point, call⟩ ∧ s.stablePos.seqNum < point)
    (htold : e.Told (logOf issued) call.input) (hdep : e.durabilityDependency ≤ point)
    (hpoint : point ≤ (logOf issued).length) : (s.refuse call p).Holds issued := by
  obtain ⟨hover, hsessions⟩ := sessions_refuse (s := s) call p
  have hstable : (s.refuse call p).stablePos = s.stablePos := setSession_stablePos
  have hpending : (s.refuse call p).pendingAppends = p := setSession_pendingAppends
  have hfuts : (s.refuse call p).appendFuts = s.appendFuts := setSession_appendFuts
  have htrim : (s.refuse call p).trimPoint = s.trimPoint := setSession_trimPoint
  refine ⟨?_, ?_, htrim ▸ h.trim, ?_, ?_, ?_, ?_,
    fun n => (hsessions n).2 ▸ h.sessions n⟩
  · rw [Streamer.nextAssignablePos, hpending, hnext, hstable]
    exact h.next
  · rw [Streamer.refuse, setSession_fencingToken]
    exact h.fence
  · rw [hfuts, hstable]
    exact h.futs
  · rw [hfuts, hpending, hnext]
    exact h.no_futs
  · rw [hpending]
    exact hordered
  · intro b hb
    rw [hpending] at hb
    rcases hqueue b hb with hb | ⟨rfl, hlt⟩
    · have := (h.queue b hb).mono [] hstable fun n =>
        ⟨(hsessions n).1, Nat.le_of_eq (hsessions n).2.symm⟩
      rwa [List.append_nil] at this
    · exact ⟨hstable.symm ▸ hlt, hpoint, htold, hdep, fun id hid => .inl (hover id hid)⟩

/-- **An append is decided**, and no assertion fails. -/
theorem handleAppend_decided (now : ℕ) (h : s.Holds issued) (hi : Issued issued)
    (ht : s.ticket closed call = some t)
    (hterm : call.appendType = .terminal → call.input = terminalTrim)
    (hroom : (logOf issued).length + call.input.records.records.length < seqNumMax) :
    ∃ o, s.handleAppend t now = some o ∧ Decided s issued call o := by
  obtain ⟨hopen, rfl, hlive⟩ := ticket_eq_some ht
  unfold Streamer.handleAppend
  cases hseq : s.sequenceRecords call.input now with
  | ok records =>
    obtain ⟨hc, hm, htoken, hnum⟩ := sequenceRecords_ok hseq
    have hlen := congrArg List.length hm
    rw [List.length_map, List.length_map] at hlen
    refine issue_decided h hi ht ⟨fun hnil => ?_, hc, fun htype => ?_, by rwa [hlen],
      fun r hmem => ?_, hm, htoken, hnum⟩
    · rw [hnil] at hlen
      exact call.input.records.ne_nil (List.length_eq_zero_iff.mp hlen.symm)
    · rw [hm, hterm htype]
      rfl
    · have hrecord := List.mem_map_of_mem (f := SequencedRecord.record) hmem
      rw [hm] at hrecord
      obtain ⟨q, hq, heq⟩ := List.mem_map.mp hrecord
      exact heq ▸ call.input.records.small q hq
  | error e =>
    obtain ⟨htold, hdep⟩ := told_of_error h hi hseq
    obtain ⟨point, hge, hlast, hleast, heq⟩ := reject_eq call s.pendingAppends e s.stablePos
      (unpoisoned_sessionOf hlive)
    have hlast : ∀ id ∈ call.session, (s.sessions id.number).lastAckEnd ≤ point := fun id hid =>
      hlast _ (Option.mem_map_of_mem _ hid)
    have hpoint : point ≤ (logOf issued).length := hleast _ hdep fun x hx => by
      obtain ⟨id, -, rfl⟩ := Option.map_eq_some_iff.mp hx
      exact h.sessions id.number
    have hfollows : Issued (issued ++ []) := by rwa [List.append_nil]
    have hid (p : PendingAppends) : (s.refuse call p).id = s.id := setSession_id
    have hfuts (p : PendingAppends) : (s.refuse call p).appendFuts = s.appendFuts ++ [] := by
      rw [Streamer.refuse, setSession_appendFuts, List.append_nil]
    have hstable (p : PendingAppends) : (s.refuse call p).stablePos = s.stablePos :=
      setSession_stablePos
    have hpending (p : PendingAppends) : (s.refuse call p).pendingAppends = p :=
      setSession_pendingAppends
    have htrim (p : PendingAppends) : (s.refuse call p).trimPoint.state =
        trimRow s.trimPoint.state [] := congrArg CommandState.state setSession_trimPoint
    have hsessions (p : PendingAppends) := sessions_refuse (s := s) call p
    simp only [heq, bind, Option.bind]
    split_ifs with hle
    · have hholds := refuse_holds (p := s.pendingAppends) h rfl h.ordered (fun b hb => .inl hb)
        htold hge hpoint
      exact ⟨⟨s.refuse call s.pendingAppends, [(call, .error e)], []⟩, rfl, hid _, hfuts _,
        hstable _, hfollows, by rwa [List.append_nil], htrim _, trivial,
        fun n => ((hsessions _).2 n).1,
        .refused e rfl (congrArg PendingAppends.queue (hpending _)) htold (hge.trans hle)
          fun id hmem => ⟨(hsessions _).1 id hmem, (hlast id hmem).trans hle⟩⟩
    · let p : PendingAppends :=
        ⟨Waiting.enqueue BlockedReply.durabilityDependency ⟨.error e, point, call⟩
          s.pendingAppends.queue, s.pendingAppends.nextAckPos⟩
      have hholds := refuse_holds (p := p) h rfl (h.ordered.enqueue _)
        (fun b hb => (Waiting.mem_enqueue.mp hb).symm.imp_right
          fun heq => ⟨heq, Nat.lt_of_not_le hle⟩) htold hge hpoint
      exact ⟨⟨s.refuse call p, [], []⟩, rfl, hid _, hfuts _, hstable _, hfollows,
        by rwa [List.append_nil], htrim _, trivial, fun n => ((hsessions _).2 n).1,
        .delayed e point rfl (congrArg PendingAppends.queue (hpending _))
          fun id hmem => ⟨(hsessions _).1 id hmem, hlast id hmem⟩⟩

/-! ### Durable writes -/

/-- A reply that is let go. -/
def BlockedReply.toReply (tail : StreamPosition) (b : BlockedReply) : Reply :=
  (b.tx, b.reply.map fun ack => ⟨ack, tail⟩)

theorem mapM_unblock {tail : StreamPosition} : ∀ {queue : List BlockedReply},
    (∀ b ∈ queue, b.durabilityDependency ≤ tail.seqNum) →
      queue.mapM (fun b => b.unblock tail) = some (queue.map (BlockedReply.toReply tail))
  | [], _ => rfl
  | b :: queue, h => by
    have ih := mapM_unblock fun c hc => h c (List.mem_cons_of_mem _ hc)
    have hb : b.unblock tail = some (b.toReply tail) := if_pos (h b List.mem_cons_self)
    rw [List.mapM_cons, hb, ih]
    rfl

/-- What the streamer does when a write is durable. -/
structure Settled (s : Streamer) (issued : List Write) (futs : List Write)
    (result : Streamer × List Reply) : Prop where
  holds : result.1.Holds issued
  id : result.1.id = s.id
  trim : result.1.trimPoint = s.trimPoint
  futs : result.1.appendFuts = futs
  sessions : result.1.sessions = s.sessions
  queue : result.1.pendingAppends.queue = Waiting.later BlockedReply.durabilityDependency
    result.1.stablePos.seqNum s.pendingAppends.queue
  replies : result.2 = (Waiting.due BlockedReply.durabilityDependency
    result.1.stablePos.seqNum s.pendingAppends.queue).map
      (BlockedReply.toReply result.1.stablePos)

/-- **A write that is durable** lets go what waits for it, and no assertion fails. -/
theorem onDurable_settled {w : Write} {futs : List Write} (h : s.Holds issued)
    (hi : Issued issued) (hw : s.appendFuts = w :: futs) :
    ∃ result, s.onDurable = some result ∧ Settled s issued futs result := by
  obtain ⟨done, hdone, hs⟩ := h.futs
  rw [hw] at hdone
  have hfollows : Follows done w := hi done w futs hdone
  let stable := endFrom .min (logOf (done ++ [w]))
  have hstable : nextPos w.records = some stable := by
    rw [nextPos_eq_some s.stablePos hfollows.ne_nil, hs, ← endFrom_append]
    simp [stable]
  have hdue : (Waiting.due BlockedReply.durabilityDependency stable.seqNum
      s.pendingAppends.queue).mapM (fun b => b.unblock stable) = some _ :=
    mapM_unblock fun b hb => Waiting.le_of_mem_due hb
  have hnext : s.pendingAppends.nextAckPos ≠ none := fun hn => by
    rw [h.no_futs hn] at hw
    cases hw
  refine ⟨_, by
    unfold Streamer.onDurable PendingAppends.onStable
    rw [hw]
    simp only [bind, Option.bind, hstable, hdue]; rfl, ?_, rfl, rfl, rfl, rfl, rfl, rfl⟩
  refine ⟨?_, h.fence, h.trim,
    ⟨done ++ [w], by rw [hdone]; simp, rfl⟩, fun hn => absurd hn hnext, h.ordered.later _,
    fun b hb => ?_, h.sessions⟩
  · obtain ⟨prev, hp⟩ := Option.ne_none_iff_exists'.mp hnext
    rw [← h.next]
    simp [Streamer.nextAssignablePos, hp]
  · have hb' := h.queue b (Waiting.mem_of_mem_later hb)
    exact ⟨h.ordered.lt_of_later hb, hb'.le, hb'.justified, hb'.enough, hb'.session⟩

/-- The loop goes on or ends, and its assertion does not fail. -/
theorem loopHead_isSome (h : s.Holds issued) (hi : Issued issued) : ∃ b, s.loopHead = some b := by
  unfold Streamer.loopHead
  split_ifs with hmax heq hlt
  · exact ⟨true, rfl⟩
  · exact ⟨false, rfl⟩
  · have := h.stable_le hi
    rw [← h.trim.last hmax] at this
    omega
  · exact ⟨false, rfl⟩

end Decisions

end S2
end Gitdot
