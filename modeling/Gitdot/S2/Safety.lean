/-
# What every run of a stream keeps

Whatever the moves of a run are, streamers that end at any point, writes that are
lost, trims that are cut short, `Inv` holds: the writes that are issued follow one
another, the rows are what the durable ones leave, the streamer holds what has been
issued, and a reply that is out tells of the durable log only (`Tells`). From it: no
assertion ever fails, the log is dense and in the order of its timestamps, an append
that is acknowledged is in the log, where its conditions are met, and in the rows until
a trim command asks for it, and a trim that is through leaves nothing behind.

Key definitions: `Tells`, `Live`, `Backend.Inv`.
Key theorems: `Backend.exec_inv`, `Backend.Reached.inv`.
-/
import Gitdot.S2.Rows

namespace Gitdot
namespace S2

open Lib

/-- What a reply that is out says of the durable log. -/
def Tells (log : List SequencedRecord) (r : Reply) : Prop :=
  match r.2 with
  | .ok ack => Appended log r.1.input ack.toAckRange ∧
      ∃ l more, log = l ++ more ∧ ack.tail = endFrom .min l ∧ ack.stop.seqNum ≤ l.length
  | .error e => e.Told log r.1.input

/-- The streamer that runs, beside the writes that are durable and the others. -/
structure Live (row : ℕ) (history pending : List Write) (nextId : ℕ) (s : Streamer) : Prop where
  holds : s.Holds (history ++ pending)
  waiting : pending.length ≤ s.appendFuts.length
  trim : trimRow row pending ≤ s.trimPoint.state
  id : s.id < nextId

namespace Backend

structure Inv (b : Backend) : Prop where
  issued : Issued (b.history ++ b.pending)
  rows : RowsHold b.rows b.history
  rising : Rising (b.rows.trimPoint.getD 0) b.pending
  live : ∀ s ∈ b.streamer, Live (b.rows.trimPoint.getD 0) b.history b.pending b.nextId s
  job : ∀ j ∈ b.job, JobHolds b.rows b.history j
  replies : ∀ r ∈ b.replies, Tells (logOf b.history) r
  sound : b.panicked = false

end Backend

section Steps

variable {b : Backend} {s : Streamer} {log more : List SequencedRecord} {r : Reply}
  {history pending : List Write} {row nextId : ℕ}

theorem Tells.append (h : Tells log r) (more : List SequencedRecord) : Tells (log ++ more) r := by
  obtain ⟨call, reply⟩ := r
  cases reply with
  | ok ack =>
    obtain ⟨happ, l, rest, rfl, htail, hle⟩ := h
    exact ⟨happ.append, l, rest ++ more, by simp, htail, hle⟩
  | error e =>
    have hjust : Justified log call.input (.error e) := h
    exact hjust.append

/-- What the streamer has been told of is durable. -/
theorem Live.done (h : Live row history pending nextId s) :
    ∃ done rest, history = done ++ rest ∧ s.stablePos = endFrom .min (logOf done) ∧
      done ++ s.appendFuts = history ++ pending := by
  obtain ⟨done, heq, hs⟩ := h.holds.futs
  have hlen := congrArg List.length heq
  rw [List.length_append, List.length_append] at hlen
  have hw := h.waiting
  obtain ⟨rest, hrest⟩ : done <+: history :=
    List.prefix_of_prefix_length_le ⟨_, heq.symm⟩ (List.prefix_append _ _) (by omega)
  exact ⟨done, rest, hrest.symm, hs, heq.symm⟩

theorem Live.stable_le (h : Live row history pending nextId s) (hi : Issued (history ++ pending)) :
    s.stablePos.seqNum ≤ (logOf history).length := by
  obtain ⟨done, rest, rfl, hs, -⟩ := h.done
  rw [hs, hi.left.left.length_eq, logOf_append, List.length_append]
  omega

/-- A reply is justified by what is durable where it waits for no more. -/
theorem Justified.durable {input : AppendInput} {reply : Except AppendError AckRange}
    (h : Justified (logOf (history ++ pending)) input reply)
    (hd : dependency reply ≤ (logOf history).length) : Justified (logOf history) input reply :=
  Justified.cut (logOf_append ▸ h) hd

/-- **Replies that a durable write lets go.** -/
theorem tells_of_due (h : Live row history pending nextId s) (hi : Issued (history ++ pending))
    {tail : StreamPosition} {done rest : List Write} (hdone : history = done ++ rest)
    (htail : tail = endFrom .min (logOf done)) :
    ∀ r ∈ (Waiting.due BlockedReply.durabilityDependency tail.seqNum s.pendingAppends.queue).map
      (BlockedReply.toReply tail), Tells (logOf history) r := by
  intro r hr
  obtain ⟨waiting, hw, rfl⟩ := List.mem_map.mp hr
  have hdue := Waiting.le_of_mem_due hw
  have hwaits := h.holds.queue waiting (Waiting.mem_of_mem_due hw)
  have hseq : tail.seqNum = (logOf done).length := by
    rw [htail]
    subst hdone
    exact hi.left.left.length_eq
  have hlog : logOf history = logOf done ++ logOf rest := by rw [hdone, logOf_append]
  have hjust : Justified (logOf history) waiting.tx.input waiting.reply := by
    refine Justified.durable hwaits.justified ?_
    have := hwaits.enough
    rw [hlog, List.length_append]
    omega
  obtain ⟨reply, point, call⟩ := waiting
  cases reply with
  | ok range =>
    refine ⟨hjust, logOf done, logOf rest, hlog, htail, ?_⟩
    have : range.stop.seqNum ≤ point := hwaits.enough
    have : point ≤ tail.seqNum := hdue
    change range.stop.seqNum ≤ _
    omega
  | error e => exact hjust

end Steps

namespace Backend

variable {b : Backend} {s : Streamer} {call : Call} {config : OptionalTimestampingConfig}

/-- The streamer goes on, or ends after a terminal trim. -/
theorem enter_inv (hi : Issued (b.history ++ b.pending)) (hr : RowsHold b.rows b.history)
    (hrise : Rising (b.rows.trimPoint.getD 0) b.pending)
    (hlive : Live (b.rows.trimPoint.getD 0) b.history b.pending b.nextId s)
    (hjob : ∀ j ∈ b.job, JobHolds b.rows b.history j)
    (hreplies : ∀ r ∈ b.replies, Tells (logOf b.history) r) (hsound : b.panicked = false) :
    (b.enter s).Inv := by
  obtain ⟨done, hdone⟩ := loopHead_isSome hlive.holds hi
  unfold enter
  rw [hdone]
  cases done with
  | true => exact ⟨hi, hr, hrise, nofun, hjob, hreplies, hsound⟩
  | false => exact ⟨hi, hr, hrise, fun s' hs => Option.some.inj hs ▸ hlive, hjob, hreplies, hsound⟩

/-- What becomes of an append: it is not admitted, or it is decided. -/
theorem receive_cases (h : b.Inv) (hadm : b.Receives call) (closed : Bool) (now : ℕ) :
    b.receive call closed now = b ∨ ∃ s o, b.streamer = some s ∧
      (∀ id ∈ call.session, (s.sessions id.number).poisoned = false) ∧
      Decided s (b.history ++ b.pending) call o ∧
      b.receive call closed now = Backend.enter { b with
        admitted := b.admitted ++ [call]
        replies := b.replies ++ o.replies
        pending := b.pending ++ o.writes } o.streamer := by
  unfold receive
  cases hs : b.streamer with
  | none => exact .inl rfl
  | some s =>
    simp only
    cases ht : s.ticket closed call with
    | none => exact .inl rfl
    | some t =>
      have hlive := h.live s hs
      have hroom := hadm.room s hs
      rw [hlive.holds.next_eq h.issued] at hroom
      obtain ⟨o, ho, hd⟩ := handleAppend_decided now hlive.holds h.issued ht hadm.terminal hroom
      simp only [ho]
      exact .inr ⟨s, o, rfl, (ticket_eq_some ht).2.2, hd, rfl⟩

theorem receive_inv (h : b.Inv) (hadm : b.Receives call) (closed : Bool) (now : ℕ) :
    (b.receive call closed now).Inv := by
  rcases receive_cases h hadm closed now with heq | ⟨s, o, hs, -, hd, heq⟩
  · rw [heq]
    exact h
  · have hlive := h.live s hs
    have htrim : ∀ row ws ws', trimRow row (ws ++ ws') = trimRow (trimRow row ws) ws' :=
      fun _ _ _ => List.foldl_append
    rw [heq]
    refine enter_inv ?_ h.rows ?_ ⟨?_, ?_, ?_, ?_⟩ h.job ?_ h.sound
    · rw [← List.append_assoc]
      exact hd.follows
    · exact rising_append.mpr ⟨h.rising, hd.rising.mono hlive.trim⟩
    · rw [← List.append_assoc]
      exact hd.holds
    · have := hlive.waiting
      rw [hd.futs]
      simp only [List.length_append]
      omega
    · rw [htrim, hd.trim]
      exact trimRow_mono hlive.trim _
    · rw [hd.id]
      exact hlive.id
    · intro r hr
      rcases List.mem_append.mp hr with hr | hr
      · exact h.replies r hr
      · cases hd.decision with
        | accepted range hnone => simp [hnone] at hr
        | delayed e point hnone => simp [hnone] at hr
        | refused e hone _ htold hdur =>
          rw [hone, List.mem_singleton] at hr
          subst hr
          have hjust : Justified (logOf (b.history ++ b.pending)) call.input (.error e) := htold
          exact hjust.durable (hdur.trans (hlive.stable_le h.issued))

theorem persist_inv (h : b.Inv) : b.persist.Inv := by
  unfold persist
  cases hp : b.pending with
  | nil => exact h
  | cons w pending =>
    have hi : Issued ((b.history ++ [w]) ++ pending) := by simpa [hp] using h.issued
    have hrise := h.rising
    rw [hp] at hrise
    have hrow : (b.rows.put w).trimPoint.getD 0 = w.trimPoint.getD (b.rows.trimPoint.getD 0) := by
      change (w.trimPoint.or b.rows.trimPoint).getD 0 = _
      cases w.trimPoint <;> rfl
    refine ⟨hi, h.rows.put hi.left hrise.1, ?_, fun s hs => ?_,
      fun j hj => (h.job j hj).put h.rows hi.left, fun r hr => ?_, h.sound⟩
    · rw [hrow]
      exact hrise.2
    · obtain ⟨hholds, hwait, htrim, hid⟩ := h.live s hs
      rw [hp] at hholds hwait htrim
      refine ⟨by simpa using hholds, Nat.le_of_succ_le hwait, ?_, hid⟩
      rw [hrow]
      exact htrim
    · have : logOf (b.history ++ [w]) = logOf b.history ++ w.records := by simp
      rw [this]
      exact (h.replies r hr).append _

/-- What a write that is durable does: nothing yet, or it lets replies go. -/
theorem complete_cases (h : b.Inv) : b.complete = b ∨
    ∃ s w futs result, b.streamer = some s ∧ s.appendFuts = w :: futs ∧
      b.pending.length < s.appendFuts.length ∧
      Settled s (b.history ++ b.pending) futs result ∧
      b.complete = Backend.enter { b with replies := b.replies ++ result.2 } result.1 := by
  unfold complete
  cases hs : b.streamer with
  | none => exact .inl rfl
  | some s =>
    simp only
    split_ifs with hlt
    · obtain ⟨w, futs, hfuts⟩ := List.exists_cons_of_length_pos (Nat.zero_lt_of_lt hlt)
      obtain ⟨result, hsome, hset⟩ := onDurable_settled (h.live s hs).holds h.issued hfuts
      simp only [hsome]
      exact .inr ⟨s, w, futs, result, rfl, hfuts, hlt, hset, rfl⟩
    · exact .inl rfl

theorem complete_inv (h : b.Inv) : b.complete.Inv := by
  rcases complete_cases h with heq | ⟨s, w, futs, ⟨s', replies⟩, hs, hfuts, hlt, hset, heq⟩
  · rw [heq]
    exact h
  · have hlive := h.live s hs
    have hwait : b.pending.length ≤ s'.appendFuts.length := by
      rw [hset.futs]
      rw [hfuts, List.length_cons] at hlt
      omega
    have htrim : s'.trimPoint = s.trimPoint := hset.trim
    have hlive' : Live (b.rows.trimPoint.getD 0) b.history b.pending b.nextId s' :=
      ⟨hset.holds, hwait, htrim ▸ hlive.trim, hset.id ▸ hlive.id⟩
    obtain ⟨done, rest, hdone, hstable, -⟩ := hlive'.done
    have hreplies := hset.replies
    dsimp only at hreplies
    rw [heq]
    refine enter_inv h.issued h.rows h.rising hlive' h.job (fun r hr => ?_) h.sound
    rcases List.mem_append.mp hr with hr | hr
    · exact h.replies r hr
    · rw [hreplies] at hr
      exact tells_of_due hlive h.issued hdone hstable r hr

theorem fail_inv (h : b.Inv) : b.fail.Inv := by
  unfold fail
  cases hs : b.streamer with
  | none => exact h
  | some s =>
    simp only
    split_ifs
    · exact h
    · refine ⟨h.issued, h.rows, h.rising, nofun, h.job, fun r hr => ?_, h.sound⟩
      rcases List.mem_append.mp hr with hr | hr
      · exact h.replies r hr
      · obtain ⟨waiting, -, rfl⟩ := List.mem_map.mp hr
        trivial

theorem start_inv (h : b.Inv) (hp : b.pending = []) : b.start.Inv := by
  have hi : Issued b.history := h.issued.left
  obtain ⟨result, hsome, hok⟩ := startStreamer_holds h.rows hi b.nextId
  unfold start
  rw [hsome]
  cases result with
  | error e => exact h
  | ok s =>
    obtain ⟨hholds, hid, -, -, -, htrim⟩ := hok s rfl
    refine enter_inv h.issued h.rows h.rising ⟨?_, ?_, ?_, ?_⟩ h.job h.replies h.sound
    · rw [hp, List.append_nil]
      exact hholds
    · rw [hp]
      exact Nat.zero_le _
    · rw [hp, htrim]
      exact Nat.le_refl _
    · rw [hid]
      exact Nat.lt_succ_self _

theorem trimList_inv (h : b.Inv) : b.trimList.Inv := by
  unfold trimList
  split
  · rename_i t _ ht
    refine ⟨h.issued, h.rows, h.rising, h.live, fun j hj => ?_, h.replies, h.sound⟩
    obtain rfl := Option.some.inj hj
    refine ⟨h.rows.trim_le t ht, fun hmax => ?_, nofun, nofun⟩
    have hconfig : b.rows.config ≠ none := fun hn => by
      rcases h.rows.lives with ⟨hc, -⟩ | ⟨-, hrow, -⟩
      · exact hc hn
      · rw [hrow] at ht
        cases ht
    have hrow : b.rows.trimPoint = some seqNumMax := ht.trans (congrArg some hmax)
    exact ⟨hrow, (h.rows.terminal hconfig).mp hrow⟩
  · exact h

theorem trimScan_inv (h : b.Inv) : b.trimScan.Inv := by
  unfold trimScan
  split
  · rename_i t hj
    refine ⟨h.issued, h.rows, h.rising, h.live, fun j hj' => ?_, h.replies, h.sound⟩
    obtain rfl := Option.some.inj hj'
    exact trimScan_holds h.rows h.issued.left (h.job _ hj)
  · exact h

theorem trimDelete_inv (h : b.Inv) : b.trimDelete.Inv := by
  unfold trimDelete
  split
  · rename_i t l hj
    have hjob := h.job _ hj
    have hrow : (b.rows.deleteRecords (l.take deleteBatchSize)).trimPoint = b.rows.trimPoint := by
      rw [deleteRecords_eq]
    refine ⟨h.issued, h.rows.deleteRecords fun pos hpos => ?_, ?_, fun s hs => ?_, fun j hj' => ?_,
      h.replies, h.sound⟩
    · exact Nat.lt_of_lt_of_le (hjob.below l rfl pos (List.mem_of_mem_take hpos)) hjob.le
    · rw [hrow]
      exact h.rising
    · rw [hrow]
      exact h.live s hs
    · obtain rfl := Option.some.inj hj'
      exact hjob.deleteRecords
  · exact h

theorem trimFinalize_inv (h : b.Inv) : b.trimFinalize.Inv := by
  unfold trimFinalize
  split
  · rename_i t hj
    obtain ⟨rows, hsome, hrows, hle⟩ := h.rows.finalizeTrim (h.job _ hj)
    simp only [hsome]
    refine ⟨h.issued, hrows, h.rising.mono hle, fun s hs => ?_, nofun, h.replies, h.sound⟩
    obtain ⟨hholds, hwait, htrim, hid⟩ := h.live s hs
    exact ⟨hholds, hwait, (trimRow_mono hle _).trans htrim, hid⟩
  · exact h

/-- **Every move keeps the invariant.** -/
theorem exec_inv (h : b.Inv) (m : Move) (hadm : b.Admits m) : (exec m b).Inv := by
  cases m with
  | receive call closed now => exact receive_inv h hadm closed now
  | advise config =>
    refine ⟨h.issued, h.rows, h.rising, fun s' hs => ?_, h.job, h.replies, h.sound⟩
    obtain ⟨s, hold, rfl⟩ := Option.map_eq_some_iff.mp hs
    obtain ⟨hholds, hwait, htrim, hid⟩ := h.live s hold
    exact ⟨hholds.advise config, hwait, htrim, hid⟩
  | reconfigure config =>
    exact ⟨h.issued, h.rows.reconfigure config, h.rising, h.live,
      fun j hj => ⟨(h.job j hj).le, (h.job j hj).terminal, (h.job j hj).below, (h.job j hj).all⟩,
      h.replies, h.sound⟩
  | persist => exact persist_inv h
  | complete => exact complete_inv h
  | fail => exact fail_inv h
  | stop => exact ⟨h.issued, h.rows, h.rising, nofun, h.job, h.replies, h.sound⟩
  | abandon =>
    refine ⟨?_, h.rows, trivial, fun s hs => ?_, h.job, h.replies, h.sound⟩
    · change Issued (b.history ++ [])
      rw [List.append_nil]
      exact h.issued.left
    · have hnone : b.streamer = none := hadm
      exact absurd (hnone.symm.trans hs) (Option.some_ne_none s).symm
  | start => exact start_inv h hadm.2
  | trimList => exact trimList_inv h
  | trimScan => exact trimScan_inv h
  | trimDelete => exact trimDelete_inv h
  | trimFinalize => exact trimFinalize_inv h
  | trimStop => exact ⟨h.issued, h.rows, h.rising, h.live, nofun, h.replies, h.sound⟩

/-- The replies and the log only grow. -/
theorem enter_kept (b : Backend) (s : Streamer) :
    (b.enter s).replies = b.replies ∧ (b.enter s).history = b.history := by
  unfold enter
  split <;> exact ⟨rfl, rfl⟩

theorem exec_grows (m : Move) (b : Backend) :
    b.replies <+: (exec m b).replies ∧ b.history <+: (exec m b).history := by
  have hmore : ∀ (c : Backend) (more : List Reply), c.replies = b.replies ++ more →
      c.history = b.history → b.replies <+: c.replies ∧ b.history <+: c.history :=
    fun c more hr hh => ⟨hr ▸ List.prefix_append _ _, hh ▸ List.prefix_refl _⟩
  have hsame : ∀ c : Backend, c.replies = b.replies → c.history = b.history →
      b.replies <+: c.replies ∧ b.history <+: c.history :=
    fun c hr hh => hmore c [] (by rw [hr, List.append_nil]) hh
  cases m with
  | receive call closed now =>
    simp only [exec, receive]
    cases b.streamer with
    | none => exact hsame b rfl rfl
    | some s =>
      simp only
      cases s.ticket closed call with
      | none => exact hsame b rfl rfl
      | some t =>
        simp only
        cases s.handleAppend t now with
        | none => exact hsame _ rfl rfl
        | some o => exact hmore _ o.replies (enter_kept _ _).1 (enter_kept _ _).2
  | persist =>
    simp only [exec, persist]
    cases b.pending with
    | nil => exact hsame b rfl rfl
    | cons w pending => exact ⟨List.prefix_refl _, List.prefix_append _ _⟩
  | complete =>
    simp only [exec, complete]
    cases b.streamer with
    | none => exact hsame b rfl rfl
    | some s =>
      simp only
      split_ifs
      · cases s.onDurable with
        | none => exact hsame _ rfl rfl
        | some result => exact hmore _ result.2 (enter_kept _ _).1 (enter_kept _ _).2
      · exact hsame b rfl rfl
  | fail =>
    simp only [exec, fail]
    cases b.streamer with
    | none => exact hsame b rfl rfl
    | some s =>
      simp only
      split_ifs
      · exact hsame b rfl rfl
      · exact hmore _ _ rfl rfl
  | start =>
    simp only [exec, start]
    split
    · exact hsame _ rfl rfl
    · exact hsame b rfl rfl
    · exact hsame _ (enter_kept _ _).1 (enter_kept _ _).2
  | trimList =>
    simp only [exec, trimList]
    split <;> exact hsame _ rfl rfl
  | trimScan =>
    simp only [exec, trimScan]
    split <;> exact hsame _ rfl rfl
  | trimDelete =>
    simp only [exec, trimDelete]
    split <;> exact hsame _ rfl rfl
  | trimFinalize =>
    simp only [exec, trimFinalize]
    split
    · split <;> exact hsame _ rfl rfl
    · exact hsame b rfl rfl
  | advise config => exact hsame _ rfl rfl
  | reconfigure config => exact hsame _ rfl rfl
  | stop => exact hsame _ rfl rfl
  | abandon => exact hsame _ rfl rfl
  | trimStop => exact hsame _ rfl rfl

theorem run_grows {b b' : Backend} (hrun : Reach (fun c => c = b) exec Admits b') :
    b.replies <+: b'.replies ∧ b.history <+: b'.history :=
  Reach.invariant (I := fun c => b.replies <+: c.replies ∧ b.history <+: c.history)
    (fun _ hc => hc ▸ ⟨List.prefix_refl _, List.prefix_refl _⟩)
    (fun c m hc _ => ⟨hc.1.trans (exec_grows m c).1, hc.2.trans (exec_grows m c).2⟩) hrun

theorem inv_of_initial (h : b.Initial) : b.Inv := by
  obtain ⟨config, rfl⟩ := h
  exact ⟨issued_nil, created_holds config, trivial, fun s hs => absurd hs (Option.not_mem_none s),
    fun j hj => absurd hj (Option.not_mem_none j), fun r hr => absurd hr List.not_mem_nil, rfl⟩

theorem Reached.inv (h : b.Reached) : b.Inv :=
  Reach.invariant (I := Inv) (fun _ => inv_of_initial) (fun _ m hb hadm => exec_inv hb m hadm) h

/-! ### A run

The first append is acknowledged; the second one trims it; the third one asks for a
sequence number that is not next, and waits with its refusal for what it tells of. -/

def sampleSession : Option SessionId := some ⟨0, 0⟩

def sampleRecord : Call where
  id := 0
  session := sampleSession
  input := ⟨⟨[⟨some 7, .envelope [] [1]⟩], by decide, by decide, by decide⟩, some 0, none⟩
  appendType := .regular

def sampleTrim : Call where
  id := 1
  session := sampleSession
  input := ⟨⟨[⟨none, .command (.trim 1)⟩], by decide, by decide, by decide⟩, none, none⟩
  appendType := .regular

def sampleMismatch : Call where
  id := 2
  session := sampleSession
  input := ⟨⟨[⟨none, .envelope [] [2]⟩], by decide, by decide, by decide⟩, some 5, none⟩
  appendType := .regular

def sampleCreated : Backend := ⟨.created ⟨none, none⟩, [], none, none, 0, [], [], [], false⟩

def sampleStarted : Backend := play exec [.start] sampleCreated

def sampleAppended : Backend :=
  play exec [.receive sampleRecord false 10, .receive sampleTrim false 11,
    .receive sampleMismatch false 12] sampleStarted

def sampleRun : Backend :=
  play exec [.persist, .persist, .complete, .complete, .trimList, .trimScan, .trimDelete,
    .trimFinalize] sampleAppended

theorem sampleStarted_reached : sampleStarted.Reached :=
  reach_play (.start ⟨_, rfl⟩) ⟨⟨rfl, rfl⟩, trivial⟩

/-- What an append needs where the streamer of the sample runs. -/
theorem receives_sample {b : Backend} {s : Streamer} {call : Call} (hs : b.streamer = some s)
    (hfresh : ∀ c ∈ b.admitted, c.id ≠ call.id) (htype : call.appendType = .regular)
    (hsession : call.session = some ⟨s.id, 0⟩)
    (hroom : s.nextAssignablePos.seqNum + call.input.records.records.length < seqNumMax) :
    b.Receives call where
  fresh := hfresh
  terminal := fun h => by rw [htype] at h; cases h
  session := fun t ht id hid => by
    rw [hsession] at hid
    rw [← Option.some.inj hid, Option.some.inj (hs.symm.trans ht)]
  room := fun t ht => Option.some.inj (hs.symm.trans ht) ▸ hroom

theorem sampleAppended_reached : sampleAppended.Reached := by
  refine reach_play sampleStarted_reached ⟨receives_sample rfl ?_ rfl rfl (by decide),
    receives_sample rfl ?_ rfl rfl (by decide), receives_sample rfl ?_ rfl rfl (by decide), trivial⟩
  · exact fun c hc => absurd hc List.not_mem_nil
  · change ∀ c ∈ [sampleRecord], c.id ≠ 1
    simp [sampleRecord]
  · change ∀ c ∈ [sampleRecord, sampleTrim], c.id ≠ 2
    simp [sampleRecord, sampleTrim]

theorem sampleRun_reached : sampleRun.Reached :=
  reach_play sampleAppended_reached ⟨trivial, trivial, trivial, trivial, trivial, trivial, trivial,
    trivial, trivial⟩

/-! ### What every run keeps -/

end Backend

end S2
end Gitdot
