/-
# Reading what is there

A read session that is behind the tail scans the rows of the records up to it. It yields
them in batches that stay within the caps of a batch, counts each batch against its limit
when it yields it, and ends at the first record that the limit or the end in time does not
allow (`ReadSessionState.scan`). The batches come to the plain count of what is allowed
(`countAllowedRecords`, which the session uses on the records that it follows), and no
assertion of `on_batch` fails on the way (`scan_delivers`).

Key definitions: `ReadLimit`, `ReadLimit.remaining`, `ReadSessionState.onBatch`,
`ReadSessionState.scan`, `countAllowedRecords`, `Rows.scanRecords`.
Key theorems: `deny_remaining`, `remaining_remaining`, `scan_delivers`.
-/
import Gitdot.S2.Safety

namespace Gitdot
namespace S2

open Lib

/-! ### Limits -/

inductive ReadLimit where
  | unbounded
  | count (count : ℕ)
  | bytes (bytes : ℕ)
  | countOrBytes (count bytes : ℕ)

inductive EvaluatedReadLimit where
  | remaining (limit : ReadLimit)
  | exhausted

namespace ReadLimit

def allow (additionalCount additionalBytes : ℕ) : ReadLimit → Bool
  | unbounded => true
  | count n => decide (additionalCount ≤ n)
  | bytes m => decide (additionalBytes ≤ m)
  | countOrBytes n m => decide (additionalCount ≤ n) && decide (additionalBytes ≤ m)

def deny (additionalCount additionalBytes : ℕ) : ReadLimit → Bool
  | unbounded => false
  | count n => decide (n < additionalCount)
  | bytes m => decide (m < additionalBytes)
  | countOrBytes n m => decide (n < additionalCount) || decide (m < additionalBytes)

def remaining (consumedCount consumedBytes : ℕ) : ReadLimit → EvaluatedReadLimit
  | unbounded => .remaining unbounded
  | count n => if consumedCount < n then .remaining (count (n - consumedCount)) else .exhausted
  | bytes m => if consumedBytes < m then .remaining (bytes (m - consumedBytes)) else .exhausted
  | countOrBytes n m =>
    if consumedCount < n ∧ consumedBytes < m then
      .remaining (countOrBytes (n - consumedCount) (m - consumedBytes))
    else .exhausted

end ReadLimit

inductive ReadUntil where
  | unbounded
  | timestamp (t : ℕ)

def ReadUntil.allow (timestamp : ℕ) : ReadUntil → Bool
  | unbounded => true
  | .timestamp t => decide (timestamp < t)

def ReadUntil.deny (timestamp : ℕ) : ReadUntil → Bool
  | unbounded => false
  | .timestamp t => decide (t ≤ timestamp)

/-- The metered size of records. -/
def meteredSize : List SequencedRecord → ℕ
  | [] => 0
  | r :: rs => r.record.meteredSize + meteredSize rs

/-- The loop of `count_allowed_records`. -/
def countAllowedFrom (limit : ReadLimit) (readUntil : ReadUntil) :
    ℕ → ℕ → List SequencedRecord → ℕ
  | _, _, [] => 0
  | count, size, r :: rs =>
    if limit.deny (count + 1) (size + r.record.meteredSize) ||
        readUntil.deny r.position.timestamp then 0
    else countAllowedFrom limit readUntil (count + 1) (size + r.record.meteredSize) rs + 1

def countAllowedRecords (limit : ReadLimit) (readUntil : ReadUntil)
    (records : List SequencedRecord) : ℕ :=
  countAllowedFrom limit readUntil 0 0 records

/-! ### Sessions -/

structure ReadSessionState where
  startSeqNum : ℕ
  limit : EvaluatedReadLimit
  readUntil : ReadUntil
  tail : StreamPosition

/-- What one scan does: the state after it, the batches that it has yielded, and whether
the session ends here. -/
structure Scanned where
  state : ReadSessionState
  batches : List (List SequencedRecord)
  ended : Bool

namespace ReadSessionState

/-- `on_batch` of records that have been scanned. -/
def onBatch (st : ReadSessionState) (records : List SequencedRecord) : Option ReadSessionState :=
  match records.getLast?, st.limit with
  | some last, .remaining limit =>
    if limit.allow records.length (meteredSize records) &&
        st.readUntil.allow last.position.timestamp then
      some { st with
        startSeqNum := last.position.seqNum + 1
        limit := limit.remaining records.length (meteredSize records) }
    else none
  | _, _ => none

/-- What is left of a batch is yielded where the scan stops. -/
def finish (st : ReadSessionState) (records : List SequencedRecord) : Option Scanned :=
  if records ≠ [] then do
    let st' ← st.onBatch records
    some ⟨st', [records], false⟩
  else some ⟨{ st with startSeqNum := st.tail.seqNum }, [], false⟩

/-- The loop over the scanned rows, `records` being the batch so far. -/
def scan (st : ReadSessionState) (records : List SequencedRecord) :
    List SequencedRecord → Option Scanned
  | [] => st.finish records
  | r :: rest =>
    match st.limit with
    | .exhausted => st.finish records
    | .remaining limit =>
      if st.readUntil.deny r.position.timestamp ||
          limit.deny (records.length + 1) (meteredSize records + r.record.meteredSize) then
        if records = [] then some ⟨st, [], true⟩ else st.finish records
      else if records.length = recordBatchMaxCount ∨
          recordBatchMaxBytes < meteredSize records + r.record.meteredSize then do
        let st' ← st.onBatch records
        let out ← st'.scan [r] rest
        some { out with batches := records :: out.batches }
      else st.scan (records ++ [r]) rest

end ReadSessionState

/-- The rows of the records from `start` to `stop`. -/
def Rows.scanRecords (rows : Rows) (start stop : ℕ) : List SequencedRecord :=
  (scanFrom rows.data (dataKey ⟨start, 0⟩)).filter fun r =>
    decide (dataKey r.position < dataKey ⟨stop, 0⟩)

/-! ### What is left of a limit -/

section Limits

variable {limit limit' : ReadLimit} {c s c' s' : ℕ}

theorem allow_eq_not_deny (limit : ReadLimit) (c s : ℕ) : limit.allow c s = !limit.deny c s := by
  cases limit <;> rw [Bool.eq_iff_iff] <;> simp [ReadLimit.allow, ReadLimit.deny]

theorem ReadUntil.allow_eq_not_deny (u : ReadUntil) (t : ℕ) : u.allow t = !u.deny t := by
  cases u with
  | unbounded => rfl
  | timestamp t' =>
    rw [Bool.eq_iff_iff]
    simp [ReadUntil.allow, ReadUntil.deny]

/-- Where one more record is allowed, the limit is not met. -/
theorem exists_remaining (h : limit.deny (c + 1) (s + s') = false) (hs : 0 < s') :
    ∃ limit', limit.remaining c s = .remaining limit' := by
  cases limit with
  | unbounded => exact ⟨_, rfl⟩
  | count n =>
    simp only [ReadLimit.deny, decide_eq_false_iff_not] at h
    exact ⟨_, if_pos (by omega)⟩
  | bytes m =>
    simp only [ReadLimit.deny, decide_eq_false_iff_not] at h
    exact ⟨_, if_pos (by omega)⟩
  | countOrBytes n m =>
    simp only [ReadLimit.deny, Bool.or_eq_false_iff, decide_eq_false_iff_not] at h
    exact ⟨_, if_pos (by omega)⟩

/-- **What is left denies what the limit denies.** -/
theorem deny_remaining (h : limit.remaining c s = .remaining limit') :
    limit'.deny c' s' = limit.deny (c + c') (s + s') := by
  cases limit with
  | unbounded =>
    cases h
    rfl
  | count n =>
    simp only [ReadLimit.remaining] at h
    split_ifs at h with hlt
    cases h
    simp only [ReadLimit.deny]
    exact decide_eq_decide.mpr (by omega)
  | bytes m =>
    simp only [ReadLimit.remaining] at h
    split_ifs at h with hlt
    cases h
    simp only [ReadLimit.deny]
    exact decide_eq_decide.mpr (by omega)
  | countOrBytes n m =>
    simp only [ReadLimit.remaining] at h
    split_ifs at h with hlt
    cases h
    simp only [ReadLimit.deny]
    exact congrArg₂ _ (decide_eq_decide.mpr (by omega)) (decide_eq_decide.mpr (by omega))

/-- **Batch by batch** a limit is used up as at once. -/
theorem remaining_remaining (h : limit.remaining c s = .remaining limit') :
    limit'.remaining c' s' = limit.remaining (c + c') (s + s') := by
  cases limit with
  | unbounded =>
    cases h
    rfl
  | count n =>
    simp only [ReadLimit.remaining] at h
    split_ifs at h with hlt
    cases h
    simp only [ReadLimit.remaining, Nat.sub_add_eq]
    exact if_congr (by omega) rfl rfl
  | bytes m =>
    simp only [ReadLimit.remaining] at h
    split_ifs at h with hlt
    cases h
    simp only [ReadLimit.remaining, Nat.sub_add_eq]
    exact if_congr (by omega) rfl rfl
  | countOrBytes n m =>
    simp only [ReadLimit.remaining] at h
    split_ifs at h with hlt
    cases h
    simp only [ReadLimit.remaining, Nat.sub_add_eq]
    exact if_congr (by omega) rfl rfl

theorem countAllowedFrom_remaining (h : limit.remaining c s = .remaining limit')
    (readUntil : ReadUntil) : ∀ (l : List SequencedRecord) (c' s' : ℕ),
      countAllowedFrom limit' readUntil c' s' l =
        countAllowedFrom limit readUntil (c + c') (s + s') l
  | [], _, _ => rfl
  | r :: l, c', s' => by
    simp only [countAllowedFrom, deny_remaining h, countAllowedFrom_remaining h readUntil l,
      Nat.add_assoc]

end Limits

theorem meteredSize_append (a b : List SequencedRecord) :
    meteredSize (a ++ b) = meteredSize a + meteredSize b := by
  induction a with
  | nil => simp [meteredSize]
  | cons r a ih => simp [meteredSize, ih, Nat.add_assoc]

theorem meteredSize_pos (r : Record) : 0 < r.meteredSize := by
  cases r with
  | command c => exact Nat.lt_of_lt_of_le (Nat.zero_lt_succ 7) (Nat.le_add_right _ _)
  | envelope headers body =>
    exact Nat.lt_of_lt_of_le (Nat.zero_lt_succ 7) (Nat.le_add_right _ _)

/-! ### Scans -/

/-- A batch within the caps. -/
structure FitsBatch (records : List SequencedRecord) : Prop where
  ne_nil : records ≠ []
  count_le : records.length ≤ recordBatchMaxCount
  bytes_le : meteredSize records ≤ recordBatchMaxBytes

/-- What a scan of `l` delivers where `records` is the batch so far. -/
structure Delivers (limit : ReadLimit) (st : ReadSessionState) (records l : List SequencedRecord)
    (out : Scanned) : Prop where
  delivered : out.batches.flatten = records ++
    l.take (countAllowedFrom limit st.readUntil records.length (meteredSize records) l)
  fits : ∀ batch ∈ out.batches, FitsBatch batch
  used : out.batches ≠ [] → out.state.limit =
    limit.remaining out.batches.flatten.length (meteredSize out.batches.flatten)
  ended : out.ended = true ↔ records = [] ∧ l ≠ [] ∧
    countAllowedFrom limit st.readUntil records.length (meteredSize records) l = 0

/-- The batch so far, where it is what the limit and the end allow. -/
structure Allowed (limit : ReadLimit) (st : ReadSessionState) (records : List SequencedRecord) :
    Prop where
  remains : st.limit = .remaining limit
  count : limit.deny records.length (meteredSize records) = false
  ends : ∀ r ∈ records, st.readUntil.deny r.position.timestamp = false
  count_le : records.length ≤ recordBatchMaxCount
  bytes_le : meteredSize records ≤ recordBatchMaxBytes

section Scans

variable {st : ReadSessionState} {limit : ReadLimit} {records l : List SequencedRecord}

/-- The assertions of `on_batch` hold. -/
theorem onBatch_eq (h : Allowed limit st records) (hne : records ≠ []) :
    ∃ st', st.onBatch records = some st' ∧ st'.readUntil = st.readUntil ∧
      st'.limit = limit.remaining records.length (meteredSize records) := by
  have hlast := List.getLast?_eq_some_getLast hne
  refine ⟨{ st with
    startSeqNum := (records.getLast hne).position.seqNum + 1
    limit := limit.remaining records.length (meteredSize records) }, ?_, rfl, rfl⟩
  unfold ReadSessionState.onBatch
  rw [hlast, h.remains]
  simp only [allow_eq_not_deny, ReadUntil.allow_eq_not_deny, h.count,
    h.ends _ (List.getLast_mem hne), Bool.not_false, Bool.and_self, if_true]

theorem finish_delivers (h : Allowed limit st records) (hl : records = [] → l = [])
    (hnone : countAllowedFrom limit st.readUntil records.length (meteredSize records) l = 0) :
    ∃ out, st.finish records = some out ∧ Delivers limit st records l out := by
  unfold ReadSessionState.finish
  split_ifs with hne
  · obtain ⟨st', hbatch, -, hlimit⟩ := onBatch_eq h hne
    refine ⟨⟨st', [records], false⟩, by rw [hbatch]; rfl, ?_, fun batch hb => ?_, fun _ => ?_, ?_⟩
    · simp [hnone]
    · obtain rfl := List.mem_singleton.mp hb
      exact ⟨hne, h.count_le, h.bytes_le⟩
    · simpa using hlimit
    · exact ⟨fun hover => (Bool.false_ne_true hover).elim, fun hempty => absurd hempty.1 hne⟩
  · have hempty : records = [] := not_not.mp hne
    refine ⟨_, rfl, ?_, fun batch hb => absurd hb List.not_mem_nil, fun hn => absurd rfl hn, ?_⟩
    · simp [hempty, hl hempty]
    · exact ⟨fun hover => (Bool.false_ne_true hover).elim,
        fun hmore => absurd (hl hempty) hmore.2.1⟩

/-- **A scan delivers what is allowed**, whatever the batches are that it comes in. -/
theorem scan_delivers : ∀ (l : List SequencedRecord) (st : ReadSessionState) (limit : ReadLimit)
    (records : List SequencedRecord), Allowed limit st records →
      (∀ r ∈ l, r.record.meteredSize ≤ recordBatchMaxBytes) →
      ∃ out, st.scan records l = some out ∧ Delivers limit st records l out
  | [], st, limit, records, h, _ => finish_delivers h (fun _ => rfl) rfl
  | r :: rest, st, limit, records, h, hsmall => by
    have hrest : ∀ q ∈ rest, q.record.meteredSize ≤ recordBatchMaxBytes := fun q hq =>
      hsmall q (List.mem_cons_of_mem _ hq)
    have hr := hsmall r List.mem_cons_self
    unfold ReadSessionState.scan
    rw [h.remains]
    simp only
    by_cases hdeny : (st.readUntil.deny r.position.timestamp ||
        limit.deny (records.length + 1) (meteredSize records + r.record.meteredSize)) = true
    · have hnone : countAllowedFrom limit st.readUntil records.length (meteredSize records)
          (r :: rest) = 0 := by
        rw [countAllowedFrom, if_pos (by rwa [Bool.or_comm])]
      rw [if_pos hdeny]
      split_ifs with hempty
      · refine ⟨_, rfl, ?_, fun batch hb => absurd hb List.not_mem_nil, fun hn => absurd rfl hn, ?_⟩
        · rw [hnone, hempty]
          rfl
        · exact ⟨fun _ => ⟨hempty, List.cons_ne_nil _ _, hnone⟩, fun _ => rfl⟩
      · exact finish_delivers h (fun hn => absurd hn hempty) hnone
    · rw [if_neg hdeny]
      obtain ⟨hend, hcount⟩ := Bool.or_eq_false_iff.mp (Bool.eq_false_iff.mpr hdeny)
      have hnext : countAllowedFrom limit st.readUntil records.length (meteredSize records)
          (r :: rest) = countAllowedFrom limit st.readUntil (records.length + 1)
            (meteredSize records + r.record.meteredSize) rest + 1 := by
        rw [countAllowedFrom, if_neg (by rwa [Bool.or_comm])]
      split_ifs with hflush
      · -- the batch is full: it is yielded, and `r` begins the next one
        have hne : records ≠ [] := by
          rintro rfl
          simp only [List.length_nil, meteredSize, recordBatchMaxCount] at hflush
          omega
        obtain ⟨st', hbatch, hsame, hlimit⟩ := onBatch_eq h hne
        obtain ⟨limit', hleft⟩ := exists_remaining hcount (meteredSize_pos r.record)
        have hsize : meteredSize [r] = r.record.meteredSize := rfl
        have hone : Allowed limit' st' [r] := by
          refine ⟨hlimit.trans hleft, ?_, fun q hq => ?_, Nat.le_of_ble_eq_true rfl,
            hsize ▸ hr⟩
          · rw [deny_remaining hleft, hsize]
            exact hcount
          · rw [List.mem_singleton.mp hq, hsame]
            exact hend
        obtain ⟨out, hout, hd⟩ := scan_delivers rest st' limit' [r] hone hrest
        have hmore : out.batches ≠ [] := fun hn => by
          have := hd.delivered
          rw [hn] at this
          cases this
        have hflat : out.batches.flatten = r :: rest.take (countAllowedFrom limit st.readUntil
            (records.length + 1) (meteredSize records + r.record.meteredSize) rest) := by
          rw [hd.delivered, hsame, countAllowedFrom_remaining hleft, hsize]
          rfl
        refine ⟨{ out with batches := records :: out.batches }, ?_, ?_, fun batch hb => ?_,
          fun _ => ?_, ?_⟩
        · simp only [hbatch, hout, bind, Option.bind]
        · rw [List.flatten_cons, hflat, hnext, List.take_succ_cons]
        · rcases List.mem_cons.mp hb with rfl | hb
          · exact ⟨hne, h.count_le, h.bytes_le⟩
          · exact hd.fits batch hb
        · rw [List.flatten_cons, List.length_append, meteredSize_append, hd.used hmore,
            remaining_remaining hleft]
        · refine ⟨fun hover => ?_, fun hempty => absurd hempty.1 hne⟩
          exact absurd (hd.ended.mp hover).1 (List.cons_ne_nil _ _)
      · obtain ⟨hfull, hbytes⟩ := not_or.mp hflush
        have hlen : (records ++ [r]).length = records.length + 1 := List.length_append
        have hsize : meteredSize (records ++ [r]) = meteredSize records + r.record.meteredSize := by
          rw [meteredSize_append]
          rfl
        have hmore : Allowed limit st (records ++ [r]) := by
          refine ⟨h.remains, by rw [hlen, hsize]; exact hcount, fun q hq => ?_, ?_, ?_⟩
          · rcases List.mem_append.mp hq with hq | hq
            · exact h.ends q hq
            · rw [List.mem_singleton.mp hq]
              exact hend
          · have := h.count_le
            rw [hlen]
            omega
          · rw [hsize]
            omega
        obtain ⟨out, hout, hd⟩ := scan_delivers rest st limit (records ++ [r]) hmore hrest
        have hdelivered := hd.delivered
        rw [hlen, hsize] at hdelivered
        refine ⟨out, hout, ?_, hd.fits, hd.used, ?_⟩
        · rw [hdelivered, hnext, List.take_succ_cons, List.append_assoc]
          rfl
        · refine ⟨fun hover => ?_, fun hempty => ?_⟩
          · exact absurd (hd.ended.mp hover).1 (by simp)
          · rw [hnext] at hempty
            exact absurd hempty.2.2 (Nat.succ_ne_zero _)

/-- The rows of a scan are those of its range, in the order of the log. -/
theorem mem_scanRecords {rows : Rows} {start stop : ℕ} {r : SequencedRecord} :
    r ∈ rows.scanRecords start stop ↔
      r ∈ rows.data.rows ∧ start ≤ r.position.seqNum ∧ r.position.seqNum < stop := by
  rw [Rows.scanRecords, List.mem_filter, mem_scanFrom, decide_eq_true_eq, and_assoc]
  refine and_congr_right fun _ => ?_
  change dataKey _ ≤ dataKey r.position ∧ _ ↔ _
  rw [dataKey, dataKey, dataKey, Prod.Lex.toLex_le_toLex', Prod.Lex.toLex_lt_toLex]
  simp only
  omega

end Scans

namespace Backend

def sampleRead : ReadSessionState := ⟨0, .remaining (.count 5), .unbounded, ⟨2, 11⟩⟩

end Backend

end S2
end Gitdot
