/-
# What the rows of a stream keep

`RowsHold` says what the rows are after the writes that have become durable: the tail
and the fencing token are those of the log, a record of the log is there in both
tables or in neither, and it is gone only if a trim command of the log asks for it;
what a trim command asks for and is still there is below the trim point in its row.
The scan of `delete_records` stops at the first record that is not below the trim
point; as timestamps do not go back in the log, it has then come by all that are
(`mem_trimmable`).

Key definitions: `RowsHold`, `JobHolds`.
Key theorems: `RowsHold.put`, `mem_trimmable`, `RowsHold.deleteRecords`,
`RowsHold.finalizeTrim`, `startStreamer_holds`.
-/
import Gitdot.S2.Backend
import Gitdot.S2.Deciding

namespace Gitdot
namespace S2

open Lib

/-! ### Tables of records -/

section Tables

variable {rows : Rows} {pos p q : StreamPosition} {r : SequencedRecord}
  {records : List SequencedRecord}

theorem dataKey_inj : dataKey p = dataKey q ↔ p = q := by
  cases p
  cases q
  simp [dataKey]

theorem timestampKey_inj : timestampKey p = timestampKey q ↔ p = q := by
  cases p
  cases q
  simp [timestampKey, and_comm]

/-- All records in the rows are before `n`. -/
structure Below (rows : Rows) (n : ℕ) : Prop where
  data : ∀ r ∈ rows.data.rows, r.position.seqNum < n
  times : ∀ q ∈ rows.times.rows, q.position.seqNum < n

theorem mem_data_putRecord (h : Below rows r.position.seqNum) (r' : SequencedRecord) :
    r' ∈ (rows.putRecord r).data.rows ↔ r' ∈ rows.data.rows ∨ r' = r := by
  rw [Rows.putRecord, Table.mem_upsert, or_comm]
  refine or_congr_left (and_iff_left_of_imp fun hr' heq => ?_)
  have := h.data r' hr'
  rw [dataKey_inj.mp heq] at this
  exact Nat.lt_irrefl _ this

theorem mem_times_putRecord (h : Below rows r.position.seqNum) (q : TimestampRow) :
    q ∈ (rows.putRecord r).times.rows ↔ q ∈ rows.times.rows ∨ q = ⟨r.position⟩ := by
  rw [Rows.putRecord, Table.mem_upsert, or_comm]
  refine or_congr_left (and_iff_left_of_imp fun hq heq => ?_)
  have := h.times q hq
  rw [timestampKey_inj.mp heq] at this
  exact Nat.lt_irrefl _ this

/-- Records that go on from the rows come to what is there. -/
theorem mem_putRecords : ∀ {records : List SequencedRecord} {rows : Rows} {pos : StreamPosition},
    Continues pos records → Below rows pos.seqNum →
      (∀ r, r ∈ (records.foldl Rows.putRecord rows).data.rows ↔ r ∈ rows.data.rows ∨ r ∈ records) ∧
      ∀ q, q ∈ (records.foldl Rows.putRecord rows).times.rows ↔
        q ∈ rows.times.rows ∨ ∃ r ∈ records, (⟨r.position⟩ : TimestampRow) = q
  | [], _, _, _, _ => by simp
  | r :: records, rows, pos, ⟨hseq, _, hc⟩, hbelow => by
    rw [← hseq] at hbelow
    have hnext : Below (rows.putRecord r) r.next.seqNum := by
      constructor
      · intro r' hr'
        rcases (mem_data_putRecord hbelow r').mp hr' with hr' | rfl
        · exact Nat.lt_succ_of_lt (hbelow.data r' hr')
        · exact Nat.lt_succ_self _
      · intro q hq
        rcases (mem_times_putRecord hbelow q).mp hq with hq | rfl
        · exact Nat.lt_succ_of_lt (hbelow.times q hq)
        · exact Nat.lt_succ_self _
    obtain ⟨hdata, htimes⟩ := mem_putRecords hc hnext
    refine ⟨fun r' => ?_, fun q => ?_⟩
    · rw [List.foldl_cons, hdata, mem_data_putRecord hbelow, List.mem_cons, or_assoc]
    · rw [List.foldl_cons, htimes, mem_times_putRecord hbelow, List.exists_mem_cons_iff, or_assoc,
        @eq_comm _ _ q]

theorem foldl_putRecord_config : ∀ (records : List SequencedRecord) (rows : Rows),
    (records.foldl Rows.putRecord rows).config = rows.config ∧
      (records.foldl Rows.putRecord rows).idMapping = rows.idMapping
  | [], _ => ⟨rfl, rfl⟩
  | r :: records, rows => foldl_putRecord_config records (rows.putRecord r)

theorem mem_deleteRecords : ∀ (positions : List StreamPosition) (rows : Rows),
    (∀ r, r ∈ (rows.deleteRecords positions).data.rows ↔
      r ∈ rows.data.rows ∧ r.position ∉ positions) ∧
      ∀ q, q ∈ (rows.deleteRecords positions).times.rows ↔
        q ∈ rows.times.rows ∧ q.position ∉ positions
  | [], _ => by simp [Rows.deleteRecords]
  | pos :: positions, rows => by
    obtain ⟨hdata, htimes⟩ := mem_deleteRecords positions (rows.deleteRecord pos)
    refine ⟨fun r => (hdata r).trans ?_, fun q => (htimes q).trans ?_⟩
    · rw [Rows.deleteRecord, Table.mem_erase, and_assoc, List.mem_cons, not_or]
      exact and_congr_right fun _ => and_congr_left fun _ => not_congr dataKey_inj
    · rw [Rows.deleteRecord, Table.mem_erase, and_assoc, List.mem_cons, not_or]
      exact and_congr_right fun _ => and_congr_left fun _ => not_congr timestampKey_inj

theorem mem_scanFrom {α κ : Type} [Keyed α κ] [LinearOrder κ] {t : Table α} {k : κ} {a : α} :
    a ∈ scanFrom t k ↔ a ∈ t.rows ∧ k ≤ Keyed.key a := by
  simp [scanFrom]

end Tables

/-! ### The rows after the writes -/

structure RowsHold (rows : Rows) (history : List Write) : Prop where
  lives : (rows.config ≠ none ∧ rows.idMapping = true) ∨
    (rows.config = none ∧ rows.trimPoint = none ∧ trimOf history = seqNumMax)
  tail : rows.config ≠ none → rows.tail = some (endFrom .min (logOf history))
  fence : rows.config ≠ none → rows.fencingToken.getD .default = fenceRowOf history
  trim_le : ∀ t ∈ rows.trimPoint, t ≤ trimOf history
  terminal : rows.config ≠ none → (rows.trimPoint = some seqNumMax ↔ trimOf history = seqNumMax)
  data : ∀ r, r ∈ rows.data.rows ↔ r ∈ logOf history ∧ ⟨r.position⟩ ∈ rows.times.rows
  times : ∀ q ∈ rows.times.rows, ∃ r ∈ logOf history, r.position = q.position
  gone : ∀ r ∈ logOf history, r ∉ rows.data.rows → r.position.seqNum < trimOf history
  left : ∀ q ∈ rows.times.rows, q.position.seqNum < trimOf history →
    ∃ t ∈ rows.trimPoint, q.position.seqNum < t

/-- A trim in progress comes by all that is below its trim point. -/
structure JobHolds (rows : Rows) (history : List Write) (job : TrimJob) : Prop where
  le : job.trimPoint ≤ trimOf history
  terminal : job.trimPoint = seqNumMax →
    rows.trimPoint = some seqNumMax ∧ trimOf history = seqNumMax
  below : ∀ l ∈ job.scanned, ∀ pos ∈ l, pos.seqNum < job.trimPoint
  all : ∀ l ∈ job.scanned, ∀ q ∈ rows.times.rows, q.position.seqNum < job.trimPoint →
    q.position ∈ l

section Rows

variable {rows : Rows} {history : List Write} {w : Write} {job : TrimJob}

theorem created_holds (config : OptionalTimestampingConfig) : RowsHold (.created config) [] where
  lives := .inl ⟨Option.some_ne_none config, rfl⟩
  tail := fun _ => rfl
  fence := fun _ => rfl
  trim_le := nofun
  terminal := fun _ => by simp [Rows.created, trimOf, seqNumMax]
  data := fun r => by simp [Rows.created]
  times := fun q hq => absurd hq List.not_mem_nil
  gone := fun r hr => absurd hr List.not_mem_nil
  left := fun q hq => absurd hq List.not_mem_nil

/-- The rows are before where the log ends. -/
theorem RowsHold.below (h : RowsHold rows history) (hi : Issued history) :
    Below rows (logOf history).length := by
  have hlog : ∀ r ∈ logOf history, r.position.seqNum < (logOf history).length := fun r hr => by
    have := (hi.continues.seqNum_lt hr).2
    rwa [min_seqNum, Nat.zero_add] at this
  refine ⟨fun r hr => hlog r ((h.data r).mp hr).1, fun q hq => ?_⟩
  obtain ⟨r, hr, heq⟩ := h.times q hq
  exact heq ▸ hlog r hr

theorem mem_put (h : RowsHold rows history) (hi : Issued (history ++ [w])) :
    (∀ r, r ∈ (rows.put w).data.rows ↔ r ∈ rows.data.rows ∨ r ∈ w.records) ∧
      ∀ q, q ∈ (rows.put w).times.rows ↔
        q ∈ rows.times.rows ∨ ∃ r ∈ w.records, (⟨r.position⟩ : TimestampRow) = q :=
  mem_putRecords hi.last.continues (by rw [hi.left.length_eq]; exact h.below hi.left)

/-- The records of a write that follows others are not below their trim points. -/
theorem trimOf_le_seqNum (hi : Issued (history ++ [w])) {r : SequencedRecord} (hr : r ∈ w.records) :
    trimOf history ≤ r.position.seqNum ∧ r.position.seqNum < (logOf (history ++ [w])).length := by
  have hold := hi.left.trimOf_le.resolve_right (Nat.ne_of_lt hi.last.trim_open)
  have := hi.last.continues.seqNum_lt hr
  rw [hi.left.length_eq] at this
  rw [logOf_append, List.length_append]
  simp only [logOf_cons, logOf_nil, List.append_nil]
  omega

/-- **A write that becomes durable.** -/
theorem RowsHold.put (h : RowsHold rows history) (hi : Issued (history ++ [w]))
    (hrise : ∀ t ∈ w.trimPoint, rows.trimPoint.getD 0 < t) :
    RowsHold (rows.put w) (history ++ [w]) := by
  have hopen := hi.last.trim_open
  obtain ⟨hconfig, hid⟩ := h.lives.resolve_right fun hgone => Nat.ne_of_lt hopen hgone.2.2
  obtain ⟨hdata, htimes⟩ := mem_put h hi
  obtain ⟨hc, hm⟩ := foldl_putRecord_config w.records rows
  have hlog : logOf (history ++ [w]) = logOf history ++ w.records := by simp
  have htrim := trimOf_snoc history w
  refine ⟨.inl ⟨fun hn => hconfig (hc.symm.trans hn), hm.trans hid⟩, fun _ => ?_, fun _ => ?_,
    fun t ht => ?_, fun _ => ?_, fun r => ?_, fun q hq => ?_, fun r hr hgone => ?_,
    fun q hq hlt => ?_⟩
  · rw [hlog, endFrom_append, ← nextPos_eq_some _ hi.last.ne_nil]
    rw [Rows.put, nextPos_eq_some (endFrom .min (logOf history)) hi.last.ne_nil]
    rfl
  · rw [fenceRowOf, List.foldl_append]
    change (w.fencingToken.or rows.fencingToken).getD _ = w.fencingToken.getD (fenceRowOf history)
    rw [← h.fence hconfig]
    cases w.fencingToken <;> rfl
  · change w.trimPoint.or rows.trimPoint = some t at ht
    rw [htrim]
    cases hw : w.trimPoint with
    | none =>
      rw [hw, Option.none_or] at ht
      exact (h.trim_le t ht).trans (Nat.le_max_left _ _)
    | some t' =>
      rw [hw, Option.some_or, Option.some.injEq] at ht
      exact ht ▸ Nat.le_max_right _ _
  · change w.trimPoint.or rows.trimPoint = some seqNumMax ↔ _
    rw [htrim]
    cases hw : w.trimPoint with
    | none =>
      rw [Option.none_or, Option.getD_none, Nat.max_zero]
      exact h.terminal hconfig
    | some t' =>
      rw [Option.some_or, Option.getD_some, Option.some.injEq]
      omega
  · rw [hdata, htimes, hlog, List.mem_append, h.data]
    constructor
    · rintro (⟨hr, ht⟩ | hr)
      · exact ⟨.inl hr, .inl ht⟩
      · exact ⟨.inr hr, .inr ⟨r, hr, rfl⟩⟩
    · rintro ⟨hr | hr, ht | ⟨r', hr', heq⟩⟩
      · exact .inl ⟨hr, ht⟩
      · have heq : r' = r := hi.continues.eq_of_seqNum (by simp [hlog, hr']) (by simp [hlog, hr])
          (by rw [TimestampRow.mk.injEq] at heq; rw [heq])
        exact .inr (heq ▸ hr')
      · exact .inr hr
      · exact .inr hr
  · rw [hlog]
    rcases (htimes q).mp hq with hq | ⟨r, hr, rfl⟩
    · obtain ⟨r, hr, heq⟩ := h.times q hq
      exact ⟨r, List.mem_append_left _ hr, heq⟩
    · exact ⟨r, List.mem_append_right _ hr, rfl⟩
  · rw [hdata, not_or] at hgone
    rw [hlog] at hr
    rw [htrim]
    have := h.gone r ((List.mem_append.mp hr).resolve_right hgone.2) hgone.1
    omega
  · change ∃ t ∈ w.trimPoint.or rows.trimPoint, _
    have hold : q.position.seqNum < trimOf history →
        ∃ t ∈ rows.trimPoint, q.position.seqNum < t := by
      intro hlt
      rcases (htimes q).mp hq with hq | ⟨r, hr, rfl⟩
      · exact h.left q hq hlt
      · exact absurd hlt (Nat.not_lt_of_le (trimOf_le_seqNum hi hr).1)
    rw [htrim] at hlt
    cases hw : w.trimPoint with
    | none =>
      rw [hw, Option.getD_none, Nat.max_zero] at hlt
      exact hold hlt
    | some t' =>
      rw [hw, Option.getD_some] at hlt
      refine ⟨t', rfl, ?_⟩
      rcases lt_max_iff.mp hlt with hlt | hlt
      · obtain ⟨t, ht, hqt⟩ := hold hlt
        have := hrise t' hw
        rw [Option.mem_def.mp ht, Option.getD_some] at this
        omega
      · exact hlt

theorem JobHolds.put (h : RowsHold rows history) (hj : JobHolds rows history job)
    (hi : Issued (history ++ [w])) : JobHolds (rows.put w) (history ++ [w]) job := by
  have hopen := hi.last.trim_open
  have hle := hj.le
  refine ⟨?_, fun hmax => ?_, hj.below, fun l hl q hq hlt => ?_⟩
  · rw [trimOf_snoc]
    omega
  · omega
  · rcases ((mem_put h hi).2 q).mp hq with hq | ⟨r, hr, rfl⟩
    · exact hj.all l hl q hq hlt
    · have := (trimOf_le_seqNum hi hr).1
      have hlt : r.position.seqNum < job.trimPoint := hlt
      omega

theorem RowsHold.reconfigure (h : RowsHold rows history) (config : OptionalTimestampingConfig) :
    RowsHold { rows with config := rows.config.map fun _ => config } history := by
  have hconfig : rows.config.map (fun _ => config) ≠ none ↔ rows.config ≠ none :=
    not_congr Option.map_eq_none_iff
  exact ⟨h.lives.imp (fun hl => ⟨hconfig.mpr hl.1, hl.2⟩)
      fun hl => ⟨Option.map_eq_none_iff.mpr hl.1, hl.2⟩,
    fun hn => h.tail (hconfig.mp hn), fun hn => h.fence (hconfig.mp hn), h.trim_le,
    fun hn => h.terminal (hconfig.mp hn), h.data, h.times, h.gone, h.left⟩

/-! ### The trim task -/

/-- **The scan comes by all that is below the trim point.** -/
theorem mem_trimmable (h : RowsHold rows history) (hi : Issued history) {n : ℕ}
    {pos : StreamPosition} :
    pos ∈ rows.trimmable n ↔ ⟨pos⟩ ∈ rows.times.rows ∧ pos.seqNum < n := by
  have hall : scanFrom rows.times (timestampKey ⟨0, 0⟩) = rows.times.rows := by
    refine List.filter_eq_self.mpr fun q _ => decide_eq_true ?_
    change timestampKey ⟨0, 0⟩ ≤ timestampKey q.position
    rw [timestampKey, timestampKey, Prod.Lex.toLex_le_toLex']
    exact ⟨Nat.zero_le _, fun _ => Nat.zero_le _⟩
  -- where timestamps do not go back, their order is that of the sequence numbers
  have hsorted : rows.times.rows.Pairwise fun a b =>
      decide (b.position.seqNum < n) = true → decide (a.position.seqNum < n) = true := by
    refine rows.times.sorted.imp_of_mem fun {a b} ha hb hlt => ?_
    change timestampKey a.position < timestampKey b.position at hlt
    rw [timestampKey, timestampKey, Prod.Lex.toLex_lt_toLex'] at hlt
    obtain ⟨ra, hra, hpa⟩ := h.times a ha
    obtain ⟨rb, hrb, hpb⟩ := h.times b hb
    have hle : a.position.seqNum ≤ b.position.seqNum := by
      by_contra hgt
      have := hi.continues.timestamp_le_of_seqNum hrb hra (by rw [hpa, hpb]; omega)
      rw [hpa, hpb] at this
      have := hlt.2
      simp only at this
      omega
    simp only [decide_eq_true_eq]
    omega
  rw [Rows.trimmable, hall, List.mem_map]
  constructor
  · rintro ⟨q, hq, rfl⟩
    simpa using (Waiting.mem_takeWhile_iff hsorted).mp hq
  · rintro ⟨hq, hlt⟩
    exact ⟨⟨pos⟩, (Waiting.mem_takeWhile_iff hsorted).mpr ⟨hq, by simpa using hlt⟩, rfl⟩

theorem trimScan_holds (h : RowsHold rows history) (hi : Issued history) {n : ℕ}
    (hj : JobHolds rows history ⟨n, none⟩) :
    JobHolds rows history ⟨n, some (rows.trimmable n)⟩ := by
  refine ⟨hj.le, hj.terminal, fun l hl pos hpos => ?_, fun l hl q hq hlt => ?_⟩
  · obtain rfl := Option.some.inj hl
    exact ((mem_trimmable h hi).mp hpos).2
  · obtain rfl := Option.some.inj hl
    exact (mem_trimmable h hi).mpr ⟨hq, hlt⟩

/-- Only the records go. -/
theorem deleteRecords_eq : ∀ (positions : List StreamPosition) (rows : Rows),
    rows.deleteRecords positions = { rows with
      data := (rows.deleteRecords positions).data
      times := (rows.deleteRecords positions).times }
  | [], _ => rfl
  | pos :: positions, rows =>
    (deleteRecords_eq positions (rows.deleteRecord pos)).trans rfl

theorem RowsHold.deleteRecords (h : RowsHold rows history) {positions : List StreamPosition}
    (hlt : ∀ pos ∈ positions, pos.seqNum < trimOf history) :
    RowsHold (rows.deleteRecords positions) history := by
  obtain ⟨hdata, htimes⟩ := mem_deleteRecords positions rows
  rw [deleteRecords_eq]
  refine ⟨h.lives, h.tail, h.fence, h.trim_le, h.terminal, fun r => ?_,
    fun q hq => h.times q ((htimes q).mp hq).1, fun r hr hgone => ?_,
    fun q hq => h.left q ((htimes q).mp hq).1⟩
  · exact (hdata r).trans (by rw [h.data, htimes, and_assoc])
  · by_cases hmem : r ∈ rows.data.rows
    · exact hlt _ (by_contra fun hn => hgone ((hdata r).mpr ⟨hmem, hn⟩))
    · exact h.gone r hr hmem

theorem JobHolds.deleteRecords {n k : ℕ} {l : List StreamPosition}
    (hj : JobHolds rows history ⟨n, some l⟩) :
    JobHolds (rows.deleteRecords (l.take k)) history ⟨n, some (l.drop k)⟩ := by
  have htimes := (mem_deleteRecords (l.take k) rows).2
  refine ⟨hj.le, fun hmax => ?_, fun l' hl pos hpos => ?_, fun l' hl q hq hlt => ?_⟩
  · rw [deleteRecords_eq]
    exact hj.terminal hmax
  · obtain rfl := Option.some.inj hl
    exact hj.below l rfl pos (List.mem_of_mem_drop hpos)
  · obtain rfl := Option.some.inj hl
    obtain ⟨hq, hnot⟩ := (htimes q).mp hq
    have := hj.all l rfl q hq hlt
    rw [← List.take_append_drop k l, List.mem_append] at this
    exact this.resolve_left hnot

/-- **A trim is finalized**: no record below its trim point is left, and no assertion
fails. -/
theorem RowsHold.finalizeTrim (h : RowsHold rows history) {n : ℕ}
    (hj : JobHolds rows history ⟨n, some []⟩) :
    ∃ rows', rows.finalizeTrim n = some rows' ∧ RowsHold rows' history ∧
      rows'.trimPoint.getD 0 ≤ rows.trimPoint.getD 0 := by
  have hnone : ∀ q ∈ rows.times.rows, n ≤ q.position.seqNum := fun q hq =>
    Nat.le_of_not_lt fun hlt => List.not_mem_nil (hj.all [] rfl q hq hlt)
  unfold Rows.finalizeTrim
  split_ifs with hmax hid heq
  · refine ⟨_, rfl, ⟨.inr ⟨rfl, rfl, (hj.terminal hmax).2⟩, fun hn => absurd rfl hn,
      fun hn => absurd rfl hn, nofun, fun hn => absurd rfl hn, h.data, h.times, h.gone,
      fun q hq hlt => ?_⟩, Nat.zero_le _⟩
    have := hnone q hq
    have := (hj.terminal hmax).2
    omega
  · rcases h.lives with ⟨-, hmap⟩ | ⟨-, hrow, -⟩
    · exact absurd hmap hid
    · rw [(hj.terminal hmax).1] at hrow
      cases hrow
  · refine ⟨_, rfl, ⟨h.lives.imp id fun hgone => ⟨hgone.1, rfl, hgone.2.2⟩, h.tail, h.fence, nofun,
      fun hconfig => ?_, h.data, h.times, h.gone, fun q hq hlt => ?_⟩, Nat.zero_le _⟩
    · rw [← h.terminal hconfig, heq, Option.some.injEq]
      exact ⟨nofun, fun hn => absurd hn hmax⟩
    · obtain ⟨t, ht, hqt⟩ := h.left q hq hlt
      rw [heq] at ht
      have := hnone q hq
      rw [← Option.some.inj ht] at hqt
      omega
  · exact ⟨rows, rfl, h, Nat.le_refl _⟩

/-! ### A streamer that starts -/

/-- **Nothing is lost.** A streamer that starts goes on from the log. -/
theorem startStreamer_holds (h : RowsHold rows history) (hi : Issued history) (id : ℕ) :
    ∃ result, rows.startStreamer id = some result ∧
      ∀ s, result = .ok s → s.Holds history ∧ s.id = id ∧ s.appendFuts = [] ∧
        s.pendingAppends.queue = [] ∧ (∀ n, s.sessions n = .new) ∧
        s.trimPoint.state = rows.trimPoint.getD 0 := by
  unfold Rows.startStreamer
  cases hc : rows.config with
  | none => exact ⟨_, rfl, nofun⟩
  | some config =>
    have hconfig : rows.config ≠ none := hc ▸ Option.some_ne_none config
    have hlen := hi.length_eq
    have hempty : scanFrom rows.data
        (dataKey ⟨(endFrom .min (logOf history)).seqNum, 0⟩) = [] := by
      refine List.filter_eq_nil_iff.mpr fun r hr => ?_
      have := (h.below hi).data r hr
      rw [decide_eq_true_eq]
      change ¬ dataKey _ ≤ dataKey r.position
      rw [dataKey, dataKey, Prod.Lex.toLex_le_toLex', hlen]
      exact fun hle => Nat.not_lt_of_le hle.1 this
    simp only [h.tail hconfig, Option.getD_some, hempty, ne_eq, not_true_eq_false, if_false]
    split_ifs with hmax
    · exact ⟨_, rfl, nofun⟩
    · refine ⟨_, rfl, fun s hs => ?_⟩
      obtain rfl := Except.ok.inj hs
      have htrim : rows.trimPoint.getD 0 ≠ seqNumMax := by
        cases ht : rows.trimPoint with
        | none => decide
        | some t => exact fun heq => hmax (by rw [ht, ← heq, Option.getD_some])
      refine ⟨⟨rfl, ⟨Nat.le_of_eq hlen, ?_, ?_⟩,
        ⟨?_, ?_, Nat.le_of_eq hlen, fun hn => absurd hn htrim⟩,
        ⟨history, (List.append_nil _).symm, rfl⟩, fun _ => rfl, .nil,
        fun b hb => absurd hb List.not_mem_nil, fun n => Nat.zero_le _⟩, rfl, rfl, rfl,
        fun n => rfl, rfl⟩
      · rw [hlen, List.take_length, h.fence hconfig, hi.fenceOf]
      · rw [h.fence hconfig, hi.fenceOf]
      · cases ht : rows.trimPoint with
        | none => exact Nat.zero_le _
        | some t => exact h.trim_le t ht
      · exact fun hn => absurd ((h.terminal hconfig).mpr hn) hmax

end Rows

end S2
end Gitdot
