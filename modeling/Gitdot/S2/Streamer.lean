/-
# The streamer of a stream

A streamer is the one task that appends to a stream. It decides an append when it
receives it: the fencing token and the sequence number that the append asks for
are compared with what the writes that it has issued leave, the records get their
positions, and the write is issued. The reply waits: an acknowledgement for its
own write, a refusal for the writes that it tells of, and one of a session for what
the session has been promised before (`Ticket.reject`). The streamer holds the
replies in the order of what they wait for and sends what a write that has become
durable lets go (`PendingAppends.onStable`). `none` stands for an assertion that
fails.

Key definitions: `sequencedRecords`, `Streamer.sequenceRecords`,
`Streamer.applyCommand`, `PendingAppends`, `Ticket`, `Streamer.handleAppend`,
`Streamer.onDurable`, `Streamer.loopHead`.
-/
import Gitdot.Lib.Waiting
import Gitdot.S2.Record

namespace Gitdot
namespace S2

open Lib

/-! ### Positions of new records -/

inductive TimestampingMode where
  | clientPrefer
  | clientRequire
  | arrival

structure OptionalTimestampingConfig where
  mode : Option TimestampingMode
  uncapped : Option Bool

inductive AppendConditionFailed where
  | fencingTokenMismatch (expected actual : FencingToken) (appliedPoint : ℕ)
  | seqNumMismatch (assignedSeqNum matchSeqNum : ℕ)

inductive AppendError where
  | conditionFailed (e : AppendConditionFailed)
  | timestampMissing
  | storage

/-- The timestamp that a record asks for. -/
def TimestampingMode.asked (now : ℕ) :
    TimestampingMode → Option ℕ → Except AppendError ℕ
  | .clientPrefer, timestamp => .ok (timestamp.getD now)
  | .clientRequire, some timestamp => .ok timestamp
  | .clientRequire, none => .error .timestampMissing
  | .arrival, _ => .ok now

/-- The loop of `sequenced_records`. -/
def sequencedFrom (mode : TimestampingMode) (uncapped : Bool) (now : ℕ) :
    ℕ → ℕ → List AppendRecord → Except AppendError (List SequencedRecord)
  | _, _, [] => .ok []
  | seqNum, maxTimestamp, r :: rs => do
    let asked ← mode.asked now r.timestamp
    let capped := if !uncapped && decide (now < asked) then now else asked
    let timestamp := if capped < maxTimestamp then maxTimestamp else capped
    let rest ← sequencedFrom mode uncapped now (seqNum + 1) timestamp rs
    .ok (⟨⟨seqNum, timestamp⟩, r.record⟩ :: rest)

def sequencedRecords (batch : AppendRecordBatch) (firstSeqNum : ℕ)
    (prevMaxTimestamp : ℕ) (config : OptionalTimestampingConfig) (now : ℕ) :
    Except AppendError (List SequencedRecord) :=
  sequencedFrom (config.mode.getD .clientPrefer) (config.uncapped.getD false) now firstSeqNum
    prevMaxTimestamp batch.records

def SequencedRecord.next (r : SequencedRecord) : StreamPosition :=
  ⟨r.position.seqNum + 1, r.position.timestamp⟩

def nextPos (records : List SequencedRecord) : Option StreamPosition :=
  records.getLast?.map SequencedRecord.next

/-! ### Replies in waiting -/

inductive AppendType where
  | regular
  | terminal
  deriving DecidableEq

/-- The most that a trim command of an append trims. -/
def AppendType.trimMax (appliedPoint : ℕ) : AppendType → ℕ
  | .regular => appliedPoint
  | .terminal => seqNumMax

/-- A session is of one streamer. -/
structure SessionId where
  streamer : ℕ
  number : ℕ
  deriving DecidableEq

/-- An append that awaits its reply. -/
structure Call where
  id : ℕ
  session : Option SessionId
  input : AppendInput
  appendType : AppendType

structure AckRange where
  start : StreamPosition
  stop : StreamPosition

structure AppendAck extends AckRange where
  tail : StreamPosition

abbrev Reply := Call × Except AppendError AppendAck

structure SessionState where
  lastAckEnd : ℕ
  poisoned : Bool

/-- `SessionHandle::new`. -/
def SessionState.new : SessionState := ⟨0, false⟩

structure BlockedReply where
  reply : Except AppendError AckRange
  durabilityDependency : ℕ
  tx : Call

/-- An append that has been admitted, with its session locked. -/
structure Ticket where
  tx : Call
  session : Option SessionState

def admitAppend (closed : Bool) (tx : Call) (session : Option SessionState) : Option Ticket :=
  if closed then none
  else match session with
    | none => some ⟨tx, none⟩
    | some st => if st.poisoned then none else some ⟨tx, some st⟩

/-- `AppendConditionFailedError::durability_dependency`, and `..0` for what is none. -/
def AppendError.durabilityDependency : AppendError → ℕ
  | .conditionFailed (.seqNumMismatch assigned _) => assigned
  | .conditionFailed (.fencingTokenMismatch _ _ appliedPoint) => appliedPoint
  | .timestampMissing => 0
  | .storage => 0

def Ticket.accept (t : Ticket) (range : AckRange) : Option (BlockedReply × Option SessionState) :=
  let durabilityDependency := range.stop.seqNum
  match t.session with
  | none => some (⟨.ok range, durabilityDependency, t.tx⟩, none)
  | some st =>
    if st.poisoned then none
    else some (⟨.ok range, durabilityDependency, t.tx⟩,
      some { st with lastAckEnd := durabilityDependency })

/-- The reply that waits for as much as the session does, and the poisoned session. -/
def Ticket.reject (t : Ticket) (e : AppendError) : Option (BlockedReply × Option SessionState) :=
  match t.session with
  | none => some (⟨.error e, e.durabilityDependency, t.tx⟩, none)
  | some st =>
    if st.poisoned then none
    else some (⟨.error e, max e.durabilityDependency st.lastAckEnd, t.tx⟩,
      some { st with poisoned := true })

/-- `BlockedReplySender::unblock` where the write is durable. -/
def BlockedReply.unblock (b : BlockedReply) (tail : StreamPosition) : Option Reply :=
  if b.durabilityDependency ≤ tail.seqNum then some (b.tx, b.reply.map fun ack => ⟨ack, tail⟩)
  else none

structure PendingAppends where
  queue : List BlockedReply
  nextAckPos : Option StreamPosition

def PendingAppends.new : PendingAppends := ⟨[], none⟩

def PendingAppends.accept (p : PendingAppends) (ticket : Ticket) (range : AckRange) :
    Option (PendingAppends × Option SessionState) :=
  if p.nextAckPos.all fun prev => decide (range.start.seqNum = prev.seqNum) &&
      decide (prev.timestamp ≤ range.start.timestamp) then do
    let (sender, session) ← ticket.accept range
    if p.queue.getLast?.all fun prev =>
        decide (prev.durabilityDependency < sender.durabilityDependency) then
      some (⟨p.queue ++ [sender], some range.stop⟩, session)
    else none
  else none

/-- A refusal goes out at once where it tells of durable writes only. -/
def PendingAppends.reject (p : PendingAppends) (ticket : Ticket) (e : AppendError)
    (stablePos : StreamPosition) : Option (PendingAppends × Option SessionState × List Reply) := do
  let (sender, session) ← ticket.reject e
  if sender.durabilityDependency ≤ stablePos.seqNum then
    some (p, session, [(sender.tx, .error e)])
  else
    some ({ p with queue := Waiting.enqueue BlockedReply.durabilityDependency sender p.queue },
      session, [])

def PendingAppends.onStable (p : PendingAppends) (stablePos : StreamPosition) :
    Option (PendingAppends × List Reply) := do
  let replies ← (Waiting.due BlockedReply.durabilityDependency stablePos.seqNum p.queue).mapM
    fun b => b.unblock stablePos
  some ({ p with
    queue := Waiting.later BlockedReply.durabilityDependency stablePos.seqNum p.queue }, replies)

def PendingAppends.onDurabilityFailed (p : PendingAppends) : List Reply :=
  p.queue.map fun b => (b.tx, .error .storage)

/-! ### The streamer -/

structure CommandState (α : Type) where
  appliedPoint : ℕ
  state : α

def CommandState.isAppliedIn {α : Type} (c : CommandState α) (start stop : ℕ) : Bool :=
  decide (start < c.appliedPoint) && decide (c.appliedPoint ≤ stop)

/-- What `db_write_records` writes, in one batch. -/
structure Write where
  records : List SequencedRecord
  fencingToken : Option FencingToken
  trimPoint : Option ℕ

structure Streamer where
  id : ℕ
  config : OptionalTimestampingConfig
  fencingToken : CommandState FencingToken
  trimPoint : CommandState ℕ
  appendFuts : List Write
  pendingAppends : PendingAppends
  stablePos : StreamPosition
  /-- The sessions that appends have come from, by number. -/
  sessions : ℕ → SessionState

namespace Streamer

variable (s : Streamer)

def nextAssignablePos : StreamPosition := s.pendingAppends.nextAckPos.getD s.stablePos

/-- The records of an append that meets its conditions. -/
def sequenceRecords (input : AppendInput) (now : ℕ) :
    Except AppendError (List SequencedRecord) :=
  if input.fencingToken.any fun token => decide (token ≠ s.fencingToken.state) then
    .error (.conditionFailed (.fencingTokenMismatch (input.fencingToken.getD .default)
      s.fencingToken.state s.fencingToken.appliedPoint))
  else if input.matchSeqNum.any fun n => decide (n ≠ s.nextAssignablePos.seqNum) then
    .error (.conditionFailed (.seqNumMismatch s.nextAssignablePos.seqNum
      (input.matchSeqNum.getD 0)))
  else
    sequencedRecords input.records s.nextAssignablePos.seqNum s.nextAssignablePos.timestamp
      s.config now

def applyCommand (seqNum : ℕ) (type : AppendType) : CommandRecord → Streamer
  | .fence token => { s with fencingToken := ⟨seqNum + 1, token⟩ }
  | .trim trimPoint =>
    let trimPoint := min trimPoint (type.trimMax (seqNum + 1))
    if s.trimPoint.state < trimPoint then { s with trimPoint := ⟨seqNum + 1, trimPoint⟩ } else s

/-- The commands among the records, in their order. -/
def applyCommands (type : AppendType) : List SequencedRecord → Streamer → Streamer
  | [], s => s
  | r :: rs, s => applyCommands type rs (match r.record with
    | .command cmd => s.applyCommand r.position.seqNum type cmd
    | .envelope _ _ => s)

/-- The session of a call, if it has one. -/
def sessionOf (call : Call) : Option SessionState := call.session.map fun id => s.sessions id.number

/-- The session as a ticket leaves it. -/
def setSession (call : Call) : Option SessionState → Streamer
  | none => s
  | some st => match call.session with
    | none => s
    | some id => { s with sessions := fun n => if n = id.number then st else s.sessions n }

/-- `db_write_records` of records that this streamer has applied, from `start` to `stop`. -/
def dbWriteRecords (records : List SequencedRecord) (start stop : ℕ) : Write where
  records := records
  fencingToken :=
    if s.fencingToken.isAppliedIn start stop then some s.fencingToken.state else none
  trimPoint :=
    if s.trimPoint.isAppliedIn start stop && decide (s.trimPoint.state ≠ 0) then
      some s.trimPoint.state
    else none

/-- The append is considered until a terminal trim, unless it is not admitted. -/
def ticket (closed : Bool) (call : Call) : Option Ticket :=
  if s.trimPoint.state < seqNumMax then admitAppend closed call (s.sessionOf call) else none

/-- What an append does: the streamer after it, the reply that goes out at once and
the write that is issued. -/
structure Outcome where
  streamer : Streamer
  replies : List Reply
  writes : List Write

/-- `handle_append` of records that have their positions. -/
def issue (ticket : Ticket) (records : List SequencedRecord) : Option Outcome :=
  if ticket.tx.appendType = .terminal ∧
      records.map SequencedRecord.record ≠ [.command (.trim seqNumMax)] then none
  else do
    let applied := applyCommands ticket.tx.appendType records s
    let first ← records.head?
    let stop ← nextPos records
    let write := applied.dbWriteRecords records first.position.seqNum stop.seqNum
    let (pending, session) ← s.pendingAppends.accept ticket ⟨first.position, stop⟩
    some ⟨{ applied with
      appendFuts := s.appendFuts ++ [write]
      pendingAppends := pending }.setSession ticket.tx session, [], [write]⟩

def handleAppend (ticket : Ticket) (now : ℕ) : Option Outcome :=
  match s.sequenceRecords ticket.tx.input now with
  | .ok records => s.issue ticket records
  | .error e => do
    let (pending, session, replies) ← s.pendingAppends.reject ticket e s.stablePos
    some ⟨{ s with pendingAppends := pending }.setSession ticket.tx session, replies, []⟩

/-- The write at the head of `append_futs` is durable. -/
def onDurable : Option (Streamer × List Reply) :=
  match s.appendFuts with
  | [] => some (s, [])
  | write :: futs => do
    let stablePos ← nextPos write.records
    let (pending, replies) ← s.pendingAppends.onStable stablePos
    some ({ s with appendFuts := futs, pendingAppends := pending, stablePos := stablePos }, replies)

/-- Whether the loop of `run` ends here. -/
def loopHead : Option Bool :=
  if s.trimPoint.state = seqNumMax then
    if s.trimPoint.appliedPoint = s.stablePos.seqNum then some true
    else if s.stablePos.seqNum < s.trimPoint.appliedPoint then some false
    else none
  else some false

end Streamer

end S2
end Gitdot
