/-
# A stream: its rows, its streamer, and the trim task

The rows of a stream are what is left when everything in memory is lost. A streamer
starts from them, issues its writes in order, and is told of each when it is durable;
it may end at any time, by itself, by a failed write or with the process, and another
is started once no write of it is outstanding. Beside it the trim task takes the trim
point from its row, deletes the records below it batch by batch, and then the row, if
it is still the one that was taken; after a terminal trim it deletes the stream.

`exec` is what a move does. What the store does is in the guard: writes become durable
in the order in which they were issued, and one that did not is not followed by one
that did (`persist`, `abandon`). `panicked` says that an assertion has failed.

Key definitions: `Rows`, `Rows.startStreamer`, `Rows.finalizeTrim`, `Backend`,
`Move`, `Backend.exec`, `Backend.Admits`, `Backend.Reached`.
-/
import Mathlib.Data.Prod.Lex
import Gitdot.Lib.Reach
import Gitdot.Lib.Table
import Gitdot.S2.Streamer

namespace Gitdot
namespace S2

open Lib

/-! ### Rows -/

/-- `stream_record_data::ser_key`. -/
def dataKey (pos : StreamPosition) : ℕ ×ₗ ℕ := toLex (pos.seqNum, pos.timestamp)

/-- `stream_record_timestamp::ser_key`. -/
def timestampKey (pos : StreamPosition) : ℕ ×ₗ ℕ := toLex (pos.timestamp, pos.seqNum)

instance : Keyed SequencedRecord (ℕ ×ₗ ℕ) := ⟨fun r => dataKey r.position⟩

structure TimestampRow where
  position : StreamPosition

instance : Keyed TimestampRow (ℕ ×ₗ ℕ) := ⟨fun r => timestampKey r.position⟩

/-- The rows with keys from `k` on, in the order of the keys. -/
def scanFrom {α κ : Type} [Keyed α κ] [LinearOrder κ] (t : Table α) (k : κ) : List α :=
  t.rows.filter fun a => decide (k ≤ Keyed.key a)

structure Rows where
  config : Option OptionalTimestampingConfig
  idMapping : Bool
  tail : Option StreamPosition
  fencingToken : Option FencingToken
  trimPoint : Option ℕ
  data : Table SequencedRecord
  times : Table TimestampRow

/-- The rows that `create_stream` puts in. -/
def Rows.created (config : OptionalTimestampingConfig) : Rows :=
  ⟨some config, true, some .min, none, none, .empty, .empty⟩

inductive StartError where
  | streamNotFound
  | streamDeletionPending

namespace Rows

variable (rows : Rows)

/-- The rows of a record. -/
def putRecord (r : SequencedRecord) : Rows :=
  { rows with data := rows.data.upsert r, times := rows.times.upsert ⟨r.position⟩ }

/-- The batch of `db_write_records`. -/
def put (w : Write) : Rows :=
  { w.records.foldl putRecord rows with
    fencingToken := w.fencingToken.or rows.fencingToken
    trimPoint := w.trimPoint.or rows.trimPoint
    tail := (nextPos w.records).or rows.tail }

def startStreamer (id : ℕ) : Option (Except StartError Streamer) :=
  match rows.config with
  | none => some (.error .streamNotFound)
  | some config =>
    let tailPos := rows.tail.getD .min
    -- `assert_no_records_following_tail`
    if scanFrom rows.data (dataKey ⟨tailPos.seqNum, 0⟩) ≠ [] then none
    else if rows.trimPoint = some seqNumMax then some (.error .streamDeletionPending)
    else some (.ok
      { id := id
        config := config
        fencingToken := ⟨tailPos.seqNum, rows.fencingToken.getD .default⟩
        trimPoint := ⟨tailPos.seqNum, rows.trimPoint.getD 0⟩
        appendFuts := []
        pendingAppends := .new
        stablePos := tailPos
        sessions := fun _ => .new })

/-- The positions that the scan of `delete_records` comes by. -/
def trimmable (trimPoint : ℕ) : List StreamPosition :=
  ((scanFrom rows.times (timestampKey ⟨0, 0⟩)).takeWhile fun r =>
    decide (r.position.seqNum < trimPoint)).map TimestampRow.position

def deleteRecord (pos : StreamPosition) : Rows :=
  { rows with data := rows.data.erase (dataKey pos), times := rows.times.erase (timestampKey pos) }

/-- A batch of `delete_records`. -/
def deleteRecords (positions : List StreamPosition) : Rows := positions.foldl deleteRecord rows

/-- `none` for a stream ID that is not mapped. -/
def finalizeTrim (trimPoint : ℕ) : Option Rows :=
  if trimPoint = seqNumMax then
    if rows.idMapping then
      some { rows with
        config := none, idMapping := false, tail := none, fencingToken := none, trimPoint := none }
    else none
  else if rows.trimPoint = some trimPoint then some { rows with trimPoint := none }
  else some rows

end Rows

/-! ### The backend -/

/-- A trim that is being processed, with what is left to delete once it has scanned. -/
structure TrimJob where
  trimPoint : ℕ
  scanned : Option (List StreamPosition)

/-- `DELETE_BATCH_SIZE`. -/
def deleteBatchSize : ℕ := 10000

structure Backend where
  rows : Rows
  /-- The writes that are issued and not durable. -/
  pending : List Write
  streamer : Option Streamer
  job : Option TrimJob
  nextId : ℕ
  /-- The writes that are durable, and the appends and replies so far. -/
  history : List Write
  admitted : List Call
  replies : List Reply
  panicked : Bool

inductive Move where
  | receive (call : Call) (closed : Bool) (now : ℕ)
  | advise (config : OptionalTimestampingConfig)
  | reconfigure (config : OptionalTimestampingConfig)
  | persist
  | complete
  | fail
  | stop
  | abandon
  | start
  | trimList
  | trimScan
  | trimDelete
  | trimFinalize
  | trimStop

namespace Backend

variable (b : Backend)

/-- The task of the streamer ends with its assertion. -/
def panic : Backend := { b with streamer := none, panicked := true }

/-- The head of the loop of `run`. -/
def enter (s : Streamer) : Backend :=
  match s.loopHead with
  | none => b.panic
  | some true => { b with streamer := none }
  | some false => { b with streamer := some s }

def receive (call : Call) (closed : Bool) (now : ℕ) : Backend :=
  match b.streamer with
  | none => b
  | some s =>
    match s.ticket closed call with
    | none => b
    | some t =>
      match s.handleAppend t now with
      | none => b.panic
      | some o =>
        { b with
          admitted := b.admitted ++ [call]
          replies := b.replies ++ o.replies
          pending := b.pending ++ o.writes }.enter o.streamer

/-- The oldest of the writes becomes durable. -/
def persist : Backend :=
  match b.pending with
  | [] => b
  | w :: pending =>
    { b with rows := b.rows.put w, pending := pending, history := b.history ++ [w] }

/-- The streamer is told that its oldest write is durable. -/
def complete : Backend :=
  match b.streamer with
  | none => b
  | some s =>
    if b.pending.length < s.appendFuts.length then
      match s.onDurable with
      | none => b.panic
      | some (s', replies) => { b with replies := b.replies ++ replies }.enter s'
    else b

/-- The streamer is told that its oldest write has failed. -/
def fail : Backend :=
  match b.streamer with
  | none => b
  | some s =>
    if s.appendFuts = [] then b
    else { b with
      streamer := none
      replies := b.replies ++ s.pendingAppends.onDurabilityFailed }

def start : Backend :=
  match b.rows.startStreamer b.nextId with
  | none => b.panic
  | some (.error _) => b
  | some (.ok s) => { b with nextId := b.nextId + 1 }.enter s

/-- `list_stream_trim_pending`. -/
def trimList : Backend :=
  match b.job, b.rows.trimPoint with
  | none, some trimPoint => { b with job := some ⟨trimPoint, none⟩ }
  | _, _ => b

def trimScan : Backend :=
  match b.job with
  | some ⟨trimPoint, none⟩ =>
    { b with job := some ⟨trimPoint, some (b.rows.trimmable trimPoint)⟩ }
  | _ => b

def trimDelete : Backend :=
  match b.job with
  | some ⟨trimPoint, some positions⟩ =>
    { b with
      rows := b.rows.deleteRecords (positions.take deleteBatchSize)
      job := some ⟨trimPoint, some (positions.drop deleteBatchSize)⟩ }
  | _ => b

def trimFinalize : Backend :=
  match b.job with
  | some ⟨trimPoint, some []⟩ =>
    match b.rows.finalizeTrim trimPoint with
    | none => { b with job := none, panicked := true }
    | some rows => { b with rows := rows, job := none }
  | _ => b

def exec : Move → Backend → Backend
  | .receive call closed now, b => b.receive call closed now
  | .advise config, b => { b with streamer := b.streamer.map fun s => { s with config := config } }
  | .reconfigure config, b =>
    { b with rows := { b.rows with config := b.rows.config.map fun _ => config } }
  | .persist, b => b.persist
  | .complete, b => b.complete
  | .fail, b => b.fail
  | .stop, b => { b with streamer := none }
  | .abandon, b => { b with pending := [] }
  | .start, b => b.start
  | .trimList, b => b.trimList
  | .trimScan, b => b.trimScan
  | .trimDelete, b => b.trimDelete
  | .trimFinalize, b => b.trimFinalize
  | .trimStop, b => { b with job := none }

/-- An append that a streamer may receive: its reply channel is its own, a terminal
append is that of `terminal_trim`, a session stays with its streamer, and the sequence
numbers suffice. -/
structure Receives (call : Call) : Prop where
  fresh : ∀ c ∈ b.admitted, c.id ≠ call.id
  terminal : call.appendType = .terminal → call.input = terminalTrim
  session : ∀ s, b.streamer = some s → ∀ id ∈ call.session, id.streamer = s.id
  room : ∀ s, b.streamer = some s →
    s.nextAssignablePos.seqNum + call.input.records.records.length < seqNumMax

def Admits : Move → Prop
  | .receive call _ _ => b.Receives call
  | .abandon => b.streamer = none
  | .start => b.streamer = none ∧ b.pending = []
  | _ => True

/-- A stream that has just been created. -/
def Initial : Prop :=
  ∃ config, b = ⟨.created config, [], none, none, 0, [], [], [], false⟩

/-- The states that runs reach. -/
abbrev Reached : Prop := Reach Initial exec Admits b

end Backend

end S2
end Gitdot
