/-
# What the log of a stream says

The log is the records of the writes, in their order (`logOf`). Its records have
consecutive sequence numbers and timestamps that do not go back (`Continues`); it
says which fencing token is in force (`fenceAfter`) and which records have been
trimmed (`Trimmed`). `Follows` is what a write is where it is issued after others;
what it keeps in the rows of the stream is then what the log says
(`Issued.continues`, `Issued.fenceOf`, `Issued.lt_trimOf_iff`).

`Appended` is what an acknowledgement promises of the log, `Justified` what any
reply does; both are kept as the log grows, and what a reply waits for is enough for
them (`Justified.cut`).

Key definitions: `Continues`, `endFrom`, `fenceAfter`, `Trimmed`, `Follows`,
`Issued`, `Appended`, `Justified`.
Key theorems: `continues_append`, `Continues.seqNum_eq`, `Continues.timestamps`,
`Issued.continues`, `Issued.fenceOf`, `Issued.lt_trimOf_iff`, `Justified.cut`.
-/
import Mathlib.Data.List.Induction
import Mathlib.Order.MinMax
import Gitdot.S2.Streamer

namespace Gitdot
namespace S2

/-! ### Positions -/

/-- The records go on from `pos`. -/
def Continues : StreamPosition → List SequencedRecord → Prop
  | _, [] => True
  | pos, r :: rs => r.position.seqNum = pos.seqNum ∧ pos.timestamp ≤ r.position.timestamp ∧
      Continues r.next rs

/-- Where records that begin at `pos` end. -/
def endFrom : StreamPosition → List SequencedRecord → StreamPosition
  | pos, [] => pos
  | _, r :: rs => endFrom r.next rs

section Positions

variable {pos : StreamPosition} {a b l : List SequencedRecord} {r : SequencedRecord}

@[simp] theorem next_seqNum : r.next.seqNum = r.position.seqNum + 1 := rfl

@[simp] theorem next_timestamp : r.next.timestamp = r.position.timestamp := rfl

@[simp] theorem min_seqNum : StreamPosition.min.seqNum = 0 := rfl

theorem endFrom_append : ∀ {pos : StreamPosition} {a : List SequencedRecord},
    endFrom pos (a ++ b) = endFrom (endFrom pos a) b
  | _, [] => rfl
  | _, _ :: a => endFrom_append (a := a)

theorem continues_append : ∀ {pos : StreamPosition} {a : List SequencedRecord},
    Continues pos (a ++ b) ↔ Continues pos a ∧ Continues (endFrom pos a) b
  | _, [] => by simp [Continues, endFrom]
  | _, r :: a => by simp [Continues, endFrom, continues_append (a := a), and_assoc]

theorem Continues.seqNum_endFrom : ∀ {pos : StreamPosition} {l : List SequencedRecord},
    Continues pos l → (endFrom pos l).seqNum = pos.seqNum + l.length
  | _, [], _ => rfl
  | pos, r :: l, ⟨hseq, _, h⟩ => by
    have ih := h.seqNum_endFrom
    rw [next_seqNum] at ih
    simp only [endFrom, List.length_cons]
    omega

theorem nextPos_eq_some (pos : StreamPosition) (h : l ≠ []) : nextPos l = some (endFrom pos l) := by
  induction l generalizing pos with
  | nil => exact absurd rfl h
  | cons r l ih =>
    cases l with
    | nil => rfl
    | cons r' l =>
      rw [endFrom, ← ih r.next (by simp)]
      rfl

/-- **Consecutive records.** The record at index `i` has the sequence number that
is `i` after the first. -/
theorem Continues.seqNum_eq (h : Continues pos (a ++ r :: b)) :
    r.position.seqNum = pos.seqNum + a.length := by
  obtain ⟨ha, hr, -⟩ := continues_append.mp h
  rw [hr, ha.seqNum_endFrom]

theorem Continues.timestamp_le : ∀ {pos : StreamPosition} {l : List SequencedRecord},
    Continues pos l → pos.timestamp ≤ (endFrom pos l).timestamp ∧
      ∀ r ∈ l, pos.timestamp ≤ r.position.timestamp
  | _, [], _ => ⟨Nat.le_refl _, nofun⟩
  | pos, r :: l, ⟨_, hts, h⟩ => by
    obtain ⟨hend, hmem⟩ := h.timestamp_le
    refine ⟨hts.trans hend, fun q hq => ?_⟩
    rcases List.mem_cons.mp hq with rfl | hq
    · exact hts
    · exact hts.trans (hmem q hq)

/-- Timestamps do not go back. -/
theorem Continues.timestamps : ∀ {pos : StreamPosition} {l : List SequencedRecord},
    Continues pos l → l.Pairwise fun a b => a.position.seqNum < b.position.seqNum ∧
      a.position.timestamp ≤ b.position.timestamp
  | _, [], _ => .nil
  | pos, r :: l, ⟨_, _, h⟩ => by
    refine List.pairwise_cons.mpr ⟨fun q hq => ⟨?_, h.timestamp_le.2 q hq⟩, h.timestamps⟩
    obtain ⟨a, b, rfl⟩ := List.append_of_mem hq
    have := h.seqNum_eq
    rw [next_seqNum] at this
    omega

theorem Continues.seqNum_lt (h : Continues pos l) (hr : r ∈ l) :
    pos.seqNum ≤ r.position.seqNum ∧ r.position.seqNum < pos.seqNum + l.length := by
  obtain ⟨a, b, rfl⟩ := List.append_of_mem hr
  rw [h.seqNum_eq]
  simp only [List.length_append, List.length_cons]
  omega

/-- The log is known by its sequence numbers. -/
theorem Continues.eq_of_seqNum (h : Continues pos l) {q : SequencedRecord} (hr : r ∈ l) (hq : q ∈ l)
    (heq : r.position.seqNum = q.position.seqNum) : r = q := by
  obtain ⟨a, b, rfl⟩ := List.append_of_mem hr
  have hr := h.seqNum_eq
  have hb := (continues_append.mp h).2.2.2
  rcases List.mem_append.mp hq with hq | hq
  · have := ((continues_append.mp h).1.seqNum_lt hq).2
    omega
  · rcases List.mem_cons.mp hq with rfl | hq
    · rfl
    · have := (hb.seqNum_lt hq).1
      rw [next_seqNum] at this
      omega

/-- The order of the sequence numbers is that of the timestamps. -/
theorem Continues.timestamp_le_of_seqNum (h : Continues pos l) {q : SequencedRecord} (hr : r ∈ l)
    (hq : q ∈ l) (hlt : r.position.seqNum < q.position.seqNum) :
    r.position.timestamp ≤ q.position.timestamp := by
  obtain ⟨a, b, rfl⟩ := List.append_of_mem hr
  have hb := (continues_append.mp h).2.2.2
  have hr := h.seqNum_eq
  rcases List.mem_append.mp hq with hq | hq
  · have := ((continues_append.mp h).1.seqNum_lt hq).2
    omega
  · rcases List.mem_cons.mp hq with rfl | hq
    · exact Nat.le_refl _
    · exact hb.timestamp_le.2 q hq

end Positions

/-! ### Commands -/

/-- The token in force after one more record. -/
def Record.fenceOver (token : FencingToken) : Record → FencingToken
  | .command (.fence t) => t
  | _ => token

def fenceAfter (token : FencingToken) (log : List SequencedRecord) : FencingToken :=
  log.foldl (fun token r => r.record.fenceOver token) token

theorem fenceAfter_append {token : FencingToken} {a b : List SequencedRecord} :
    fenceAfter token (a ++ b) = fenceAfter (fenceAfter token a) b :=
  List.foldl_append

/-- A trim command of the log asks for the record `n`, and is not before it. -/
def Trimmed (log : List SequencedRecord) (n : ℕ) : Prop :=
  ∃ c ∈ log, ∃ p, c.record = .command (.trim p) ∧ n < p ∧ n ≤ c.position.seqNum

theorem Trimmed.append {log : List SequencedRecord} {n : ℕ} (h : Trimmed log n)
    (l : List SequencedRecord) : Trimmed (log ++ l) n := by
  obtain ⟨c, hc, p, hp⟩ := h
  exact ⟨c, List.mem_append_left l hc, p, hp⟩

/-! ### Writes -/

def logOf (writes : List Write) : List SequencedRecord := writes.flatMap Write.records

/-- The greatest trim point that the writes had. -/
def trimOf (writes : List Write) : ℕ := writes.foldl (fun t w => max t (w.trimPoint.getD 0)) 0

/-- The row of the trim point, or `0` for none, after the writes. -/
def trimRow (row : ℕ) (writes : List Write) : ℕ := writes.foldl (fun t w => w.trimPoint.getD t) row

/-- Each trim point is greater than the row that it replaces. -/
def Rising : ℕ → List Write → Prop
  | _, [] => True
  | row, w :: ws => (∀ t ∈ w.trimPoint, row < t) ∧ Rising (w.trimPoint.getD row) ws

@[simp] theorem logOf_nil : logOf [] = [] := rfl

@[simp] theorem logOf_append {a b : List Write} : logOf (a ++ b) = logOf a ++ logOf b :=
  List.flatMap_append

@[simp] theorem logOf_cons {w : Write} {ws : List Write} :
    logOf (w :: ws) = w.records ++ logOf ws :=
  rfl

theorem trimOf_snoc (ws : List Write) (w : Write) :
    trimOf (ws ++ [w]) = max (trimOf ws) (w.trimPoint.getD 0) := by
  simp [trimOf]

theorem rising_append {a b : List Write} : ∀ {row : ℕ},
    Rising row (a ++ b) ↔ Rising row a ∧ Rising (trimRow row a) b := by
  induction a with
  | nil => simp [Rising, trimRow]
  | cons w a ih => simp [Rising, trimRow, ih, and_assoc]

theorem Rising.mono {row row' : ℕ} (hle : row' ≤ row) : ∀ {ws : List Write}, Rising row ws →
    Rising row' ws
  | [], _ => trivial
  | w :: ws, ⟨hw, hws⟩ => by
    refine ⟨fun t ht => Nat.lt_of_le_of_lt hle (hw t ht), ?_⟩
    cases ht : w.trimPoint with
    | none =>
      rw [ht] at hws
      exact hws.mono hle
    | some t => rwa [ht] at hws

theorem trimRow_mono {row row' : ℕ} (hle : row' ≤ row) : ∀ ws : List Write,
    trimRow row' ws ≤ trimRow row ws
  | [] => hle
  | w :: ws => by
    cases ht : w.trimPoint with
    | none => simpa [trimRow, ht] using trimRow_mono hle ws
    | some t => simp [trimRow, ht]

/-- A write that is issued after others. -/
structure Follows (before : List Write) (w : Write) : Prop where
  ne_nil : w.records ≠ []
  continues : Continues (endFrom .min (logOf before)) w.records
  fence : w.fencingToken.getD (fenceAfter .default (logOf before)) =
    fenceAfter .default (logOf before ++ w.records)
  small : ∀ r ∈ w.records, r.record.meteredSize ≤ recordBatchMaxBytes
  room : (logOf before).length + w.records.length < seqNumMax
  trim_open : trimOf before < seqNumMax
  trim_covers : ∀ c ∈ w.records, ∀ p, c.record = .command (.trim p) →
    min p (c.position.seqNum + 1) ≤ max (trimOf before) (w.trimPoint.getD 0)
  trim_asked : ∀ t, w.trimPoint = some t → ∃ c ∈ w.records, ∃ p,
    c.record = .command (.trim p) ∧ t ≤ p ∧
      (t ≤ c.position.seqNum + 1 ∨ t = seqNumMax ∧ w.records = [c])

def Issued (writes : List Write) : Prop :=
  ∀ before w after, writes = before ++ w :: after → Follows before w

section Issued

variable {ws a b : List Write} {w : Write} {n : ℕ}

theorem issued_nil : Issued [] := fun _ _ _ h => by simp at h

theorem Issued.left (h : Issued (a ++ b)) : Issued a := fun before w after ha =>
  h before w (after ++ b) (by rw [ha]; simp)

theorem Issued.snoc (h : Issued ws) (hw : Follows ws w) : Issued (ws ++ [w]) := by
  intro before v after heq
  rcases List.eq_nil_or_concat after with rfl | ⟨after, u, rfl⟩
  · obtain ⟨rfl, hv⟩ := List.append_inj' heq rfl
    cases hv
    exact hw
  · have heq' : ws ++ [w] = (before ++ v :: after) ++ [u] := by simpa using heq
    exact h before v after (List.append_inj' heq' rfl).1

theorem Issued.last (h : Issued (ws ++ [w])) : Follows ws w := h ws w [] rfl

/-- **The log is whole.** -/
theorem Issued.continues : ∀ {ws : List Write}, Issued ws → Continues .min (logOf ws) := by
  intro ws
  induction ws using List.reverseRecOn with
  | nil => exact fun _ => trivial
  | append_singleton ws w ih =>
    intro h
    rw [logOf_append, continues_append]
    exact ⟨ih h.left, by simpa [logOf] using h.last.continues⟩

theorem Issued.length_eq (h : Issued ws) :
    (endFrom .min (logOf ws)).seqNum = (logOf ws).length := by
  rw [h.continues.seqNum_endFrom]
  simp

theorem Issued.room : ∀ {ws : List Write}, Issued ws → (logOf ws).length < seqNumMax := by
  intro ws
  induction ws using List.reverseRecOn with
  | nil => exact fun _ => by decide
  | append_singleton ws w =>
    intro h
    have := h.last.room
    simpa using this

theorem Issued.small : ∀ {ws : List Write}, Issued ws →
    ∀ r ∈ logOf ws, r.record.meteredSize ≤ recordBatchMaxBytes := by
  intro ws
  induction ws using List.reverseRecOn with
  | nil => exact fun _ r hr => absurd hr List.not_mem_nil
  | append_singleton ws w ih =>
    intro h r hr
    rw [logOf_append, List.mem_append] at hr
    rcases hr with hr | hr
    · exact ih h.left r hr
    · exact h.last.small r (by simpa using hr)

/-- The fencing token that the writes leave. -/
def fenceRowOf (writes : List Write) : FencingToken :=
  writes.foldl (fun t w => w.fencingToken.getD t) .default

/-- **The row of the fencing token** has the token of the last fence of the log. -/
theorem Issued.fenceOf : ∀ {ws : List Write}, Issued ws →
    fenceRowOf ws = fenceAfter .default (logOf ws) := by
  intro ws
  induction ws using List.reverseRecOn with
  | nil => exact fun _ => rfl
  | append_singleton ws w ih =>
    intro h
    have hw := h.last.fence
    rw [fenceRowOf, List.foldl_append]
    change w.fencingToken.getD (fenceRowOf ws) = _
    rw [ih h.left, hw]
    simp [logOf]

theorem Issued.trimOf_le : ∀ {ws : List Write}, Issued ws →
    trimOf ws ≤ (logOf ws).length ∨ trimOf ws = seqNumMax := by
  intro ws
  induction ws using List.reverseRecOn with
  | nil => exact fun _ => .inl (Nat.zero_le _)
  | append_singleton ws w ih =>
    intro h
    have hcont := h.continues
    have hold : trimOf ws ≤ (logOf ws).length :=
      (ih h.left).resolve_right (Nat.ne_of_lt h.last.trim_open)
    have hlen : (logOf ws).length ≤ (logOf (ws ++ [w])).length := by simp
    rw [trimOf_snoc]
    cases ht : w.trimPoint with
    | none => exact .inl (by simpa using hold.trans hlen)
    | some t =>
      rw [Option.getD_some]
      obtain ⟨c, hc, p, -, -, hle | ⟨hmax, -⟩⟩ := h.last.trim_asked t ht
      · have := (hcont.seqNum_lt (r := c) (by simp [hc])).2
        rw [min_seqNum] at this
        exact .inl (by omega)
      · have := h.last.trim_open
        exact .inr (by omega)

/-- **The trim point** is above the trimmed records of the log, and no others. -/
theorem Issued.lt_trimOf_iff : ∀ {ws : List Write}, Issued ws → n < (logOf ws).length →
    (n < trimOf ws ↔ Trimmed (logOf ws) n) := by
  intro ws
  induction ws using List.reverseRecOn with
  | nil => exact fun _ hn => absurd hn (by simp)
  | append_singleton ws w ih =>
    intro h hn
    have hcont := h.continues
    have hw := h.last
    have hlog : logOf (ws ++ [w]) = logOf ws ++ w.records := by simp
    have hold : trimOf ws ≤ (logOf ws).length :=
      h.left.trimOf_le.resolve_right (Nat.ne_of_lt hw.trim_open)
    rw [hlog] at hn hcont ⊢
    rw [trimOf_snoc, lt_max_iff]
    constructor
    · rintro (hlt | hlt)
      · exact ((ih h.left (by omega)).mp hlt).append _
      · cases ht : w.trimPoint with
        | none => simp [ht] at hlt
        | some t =>
          rw [ht, Option.getD_some] at hlt
          obtain ⟨c, hc, p, hp, htp, hcase⟩ := hw.trim_asked t ht
          refine ⟨c, by simp [hc], p, hp, by omega, ?_⟩
          rcases hcase with hle | ⟨-, hone⟩
          · omega
          · -- the record of a terminal trim is the last of the log
            rw [hone] at hn hcont
            have := hcont.seqNum_eq
            simp only [min_seqNum, List.length_append, List.length_cons, List.length_nil] at this hn
            omega
    · rintro ⟨c, hc, p, hp, hnp, hnc⟩
      rcases List.mem_append.mp hc with hc | hc
      · have hbound := ((continues_append.mp hcont).1.seqNum_lt hc).2
        rw [min_seqNum] at hbound
        exact .inl ((ih h.left (by omega)).mpr ⟨c, hc, p, hp, hnp, hnc⟩)
      · rw [← lt_max_iff]
        have := hw.trim_covers c hc p hp
        omega

end Issued

/-! ### Replies -/

/-- What an acknowledgement of `input` says of the log. -/
def Appended (log : List SequencedRecord) (input : AppendInput) (range : AckRange) : Prop :=
  ∃ before records after, log = before ++ records ++ after ∧
    records.map SequencedRecord.record = input.records.records.map AppendRecord.record ∧
    records.head?.map SequencedRecord.position = some range.start ∧
    nextPos records = some range.stop ∧
    range.start.seqNum = before.length ∧
    range.stop.seqNum = (before ++ records).length ∧
    (∀ token ∈ input.fencingToken, fenceAfter .default before = token) ∧
    ∀ n ∈ input.matchSeqNum, before.length = n

/-- What a refusal says of the log. -/
def AppendError.Told (log : List SequencedRecord) (input : AppendInput) : AppendError → Prop
  | .conditionFailed (.fencingTokenMismatch expected actual appliedPoint) =>
    input.fencingToken = some expected ∧ expected ≠ actual ∧ appliedPoint ≤ log.length ∧
      fenceAfter .default (log.take appliedPoint) = actual
  | .conditionFailed (.seqNumMismatch assigned n) =>
    input.matchSeqNum = some n ∧ n ≠ assigned ∧ assigned ≤ log.length
  | .timestampMissing => ∃ r ∈ input.records.records, r.timestamp = none
  | .storage => True

def Justified (log : List SequencedRecord) (input : AppendInput) :
    Except AppendError AckRange → Prop
  | .ok range => Appended log input range
  | .error e => e.Told log input

/-- How much of the log a reply tells of. -/
def dependency : Except AppendError AckRange → ℕ
  | .ok range => range.stop.seqNum
  | .error e => e.durabilityDependency

section Replies

variable {log more : List SequencedRecord} {input : AppendInput}
  {reply : Except AppendError AckRange}

theorem Appended.append {range : AckRange} (h : Appended log input range) :
    Appended (log ++ more) input range := by
  obtain ⟨before, records, after, rfl, h⟩ := h
  exact ⟨before, records, after ++ more, by simp, h⟩

theorem Justified.append (h : Justified log input reply) : Justified (log ++ more) input reply := by
  cases reply with
  | ok range => exact Appended.append h
  | error e =>
    cases e with
    | conditionFailed e =>
      cases e with
      | fencingTokenMismatch expected actual appliedPoint =>
        obtain ⟨he, hne, hle, hf⟩ := h
        refine ⟨he, hne, by simp; omega, ?_⟩
        rw [List.take_append_of_le_length hle]
        exact hf
      | seqNumMismatch assigned n =>
        obtain ⟨he, hne, hle⟩ := h
        exact ⟨he, hne, by simp; omega⟩
    | timestampMissing => exact h
    | storage => exact h

/-- **What a reply waits for is enough.** -/
theorem Justified.cut (h : Justified (log ++ more) input reply)
    (hd : dependency reply ≤ log.length) : Justified log input reply := by
  cases reply with
  | ok range =>
    obtain ⟨before, records, after, hlog, h1, h2, h3, h4, h5, h6⟩ := h
    have hlen : (before ++ records).length ≤ log.length := h5 ▸ hd
    refine ⟨before, records, log.drop (before ++ records).length, ?_, h1, h2, h3, h4, h5, h6⟩
    have htake := congrArg (List.take (before ++ records).length) hlog
    rw [List.take_append_of_le_length hlen, List.take_left] at htake
    calc log = log.take (before ++ records).length ++ log.drop (before ++ records).length :=
          (List.take_append_drop _ _).symm
      _ = _ := by rw [htake]
  | error e =>
    cases e with
    | conditionFailed e =>
      cases e with
      | fencingTokenMismatch expected actual appliedPoint =>
        obtain ⟨he, hne, -, hf⟩ := h
        have hle : appliedPoint ≤ log.length := hd
        rw [List.take_append_of_le_length hle] at hf
        exact ⟨he, hne, hle, hf⟩
      | seqNumMismatch assigned n => exact ⟨h.1, h.2.1, hd⟩
    | timestampMissing => exact h
    | storage => exact h

end Replies

end S2
end Gitdot
