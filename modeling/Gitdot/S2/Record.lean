/-
# Records of a stream

A stream is a log of records. A command record is for the stream itself: `fence`
sets its fencing token and `trim` its trim point; every other record is an
envelope of headers and a body. A record that is in the log has a position, a
sequence number and a timestamp.

Key definitions: `Record`, `SequencedRecord`, `Record.meteredSize`,
`AppendRecordBatch`, `AppendInput`.
-/
import Mathlib.Algebra.Group.Nat.Defs

namespace Gitdot
namespace S2


/-- `SeqNum::MAX`. -/
def seqNumMax : ℕ := 2 ^ 64 - 1

structure StreamPosition where
  seqNum : ℕ
  timestamp : ℕ
  deriving DecidableEq

/-- `StreamPosition::MIN`. -/
def StreamPosition.min : StreamPosition := ⟨0, 0⟩

/-- `MAX_FENCING_TOKEN_LENGTH`. -/
def maxFencingTokenLength : ℕ := 36

structure FencingToken where
  text : String
  length_le : text.utf8ByteSize ≤ maxFencingTokenLength
  deriving DecidableEq

/-- `FencingToken::default`. -/
def FencingToken.default : FencingToken := ⟨"", by decide⟩

inductive CommandRecord where
  | fence (token : FencingToken)
  | trim (trimPoint : ℕ)
  deriving DecidableEq

structure Header where
  name : List UInt8
  value : List UInt8
  deriving DecidableEq

inductive Record where
  | command (command : CommandRecord)
  | envelope (headers : List Header) (body : List UInt8)
  deriving DecidableEq

structure SequencedRecord where
  position : StreamPosition
  record : Record
  deriving DecidableEq

/-- `CommandOp::to_id`, all of it ASCII. -/
def CommandRecord.id : CommandRecord → List Char
  | .fence _ => "fence".toList
  | .trim _ => "trim".toList

/-- The length of `payload`. -/
def CommandRecord.payloadLength : CommandRecord → ℕ
  | .fence token => token.text.utf8ByteSize
  | .trim _ => 8

/-- `metered_size` of a record. -/
def Record.meteredSize : Record → ℕ
  | .command c => 8 + (2 + c.id.length + c.payloadLength)
  | .envelope headers body =>
    8 + (2 * headers.length +
      headers.foldl (fun n h => n + (h.name.length + h.value.length)) 0 + body.length)

/-- `AppendRecordParts`. -/
structure AppendRecord where
  timestamp : Option ℕ
  record : Record

/-- `RECORD_BATCH_MAX`. -/
def recordBatchMaxCount : ℕ := 1000
def recordBatchMaxBytes : ℕ := 1024 * 1024

structure AppendRecordBatch where
  records : List AppendRecord
  ne_nil : records ≠ []
  count_le : records.length ≤ recordBatchMaxCount
  bytes_le : records.foldl (fun n r => n + r.record.meteredSize) 0 ≤ recordBatchMaxBytes

/-- No record of a batch is larger than a batch may be. -/
theorem AppendRecordBatch.small (batch : AppendRecordBatch) :
    ∀ r ∈ batch.records, r.record.meteredSize ≤ recordBatchMaxBytes := by
  have hsum : ∀ (l : List AppendRecord) (n : ℕ),
      n ≤ l.foldl (fun n r => n + r.record.meteredSize) n ∧
        ∀ r ∈ l, r.record.meteredSize ≤ l.foldl (fun n r => n + r.record.meteredSize) n := by
    intro l
    induction l with
    | nil => exact fun n => ⟨Nat.le_refl n, fun r hr => absurd hr List.not_mem_nil⟩
    | cons q l ih =>
      intro n
      obtain ⟨hle, hmem⟩ := ih (n + q.record.meteredSize)
      refine ⟨Nat.le_trans (Nat.le_add_right _ _) hle, fun r hr => ?_⟩
      rcases List.mem_cons.mp hr with rfl | hr
      · exact Nat.le_trans (Nat.le_add_left _ _) hle
      · exact hmem r hr
  exact fun r hr => Nat.le_trans ((hsum batch.records 0).2 r hr) batch.bytes_le

structure AppendInput where
  records : AppendRecordBatch
  matchSeqNum : Option ℕ
  fencingToken : Option FencingToken

/-- The input of `terminal_trim`. -/
def terminalTrim : AppendInput where
  records := ⟨[⟨some (2 ^ 64 - 1), .command (.trim seqNumMax)⟩], by decide, by decide, by decide⟩
  matchSeqNum := none
  fencingToken := none

end S2
end Gitdot
