/-
# Readers that are polled

A reader is polled with a buffer that it fills from its front. The buffer counts
what is filled and what of its memory has ever been written (`ReadBuf`), and a
part of it can be lent out (`take`) and taken back with what is then in it
(`giveBack`, `Fills.giveBack`).

A `Source` is a reader of bytes that does not fail: each poll is pending, or
hands out the next bytes, and none only at the end. A consumer polls it with one
buffer after the other, some of them partly filled, until it is told of the end
or of an error (`drive`).

Key definitions: `ReadBuf`, `ReadBuf.Valid`, `ReadBuf.Fills`, `AsyncRead`,
`Source`, `chunks`, `drive`.
Key theorems: `ReadBuf.Fills.giveBack`.
-/
import Mathlib.Data.List.Basic
import Mathlib.Order.MinMax

namespace Lib

/-! ### Buffers -/

/-- A buffer, with `none` for memory that has not been written. -/
structure ReadBuf where
  memory : List (Option UInt8)
  filled : ℕ
  initialized : ℕ
  deriving DecidableEq

namespace ReadBuf

/-- What is filled is initialized, and what is initialized has been written. -/
structure Valid (buf : ReadBuf) : Prop where
  filled_le : buf.filled ≤ buf.initialized
  initialized_le : buf.initialized ≤ buf.memory.length
  written : ∀ i : ℕ, i < buf.initialized → buf.memory[i]? ≠ some none

def new (bytes : List UInt8) : ReadBuf := ⟨bytes.map some, 0, bytes.length⟩

def remaining (buf : ReadBuf) : ℕ := buf.memory.length - buf.filled

def filledPart (buf : ReadBuf) : List (Option UInt8) := buf.memory.take buf.filled

/-- At most so much of what is not filled, as a buffer of its own. -/
def take (buf : ReadBuf) (n : ℕ) : ReadBuf :=
  ⟨(buf.memory.drop buf.filled).take (min buf.remaining n), 0, 0⟩

/-- The buffer, with what is now in the part that was lent. -/
def giveBack (buf lent : ReadBuf) : ReadBuf :=
  { buf with
    memory := buf.memory.take buf.filled ++ (lent.memory ++
      buf.memory.drop (buf.filled + lent.memory.length)) }

def assumeInit (buf : ReadBuf) (n : ℕ) : ReadBuf :=
  { buf with initialized := max buf.initialized (buf.filled + n) }

/-- `none` where the assertion fails: only what is initialized can be filled. -/
def advance (buf : ReadBuf) (n : ℕ) : Option ReadBuf :=
  if buf.filled + n ≤ buf.initialized then some { buf with filled := buf.filled + n } else none

/-- `none` where the assertion fails: the bytes have to fit. -/
def putSlice (buf : ReadBuf) (bytes : List UInt8) : Option ReadBuf :=
  if bytes.length ≤ buf.remaining then
    some {
      memory := buf.memory.take buf.filled ++ (bytes.map some ++
        buf.memory.drop (buf.filled + bytes.length))
      filled := buf.filled + bytes.length
      initialized := max buf.initialized (buf.filled + bytes.length) }
  else none

/-- The bytes have been filled in, and nothing that was written is lost. -/
structure Fills (buf : ReadBuf) (bytes : List UInt8) (after : ReadBuf) : Prop where
  valid : after.Valid
  length_eq : after.memory.length = buf.memory.length
  filled_eq : after.filled = buf.filled + bytes.length
  part_eq : after.filledPart = buf.filledPart ++ bytes.map some
  kept : ∀ i : ℕ, after.memory[i]? = some none → buf.memory[i]? = some none

section

variable {buf lent after : ReadBuf} {bytes : List UInt8} {n : ℕ}

theorem valid_new (bytes : List UInt8) : (new bytes).Valid := by
  refine ⟨Nat.zero_le _, ?_, fun i _ h => ?_⟩
  · simp [new]
  · simp [new] at h

/-- What has just been declared to be initialized can be filled. -/
theorem advance_assumeInit : (buf.assumeInit n).advance n =
    some ⟨buf.memory, buf.filled + n, max buf.initialized (buf.filled + n)⟩ :=
  if_pos (le_max_right _ _)

theorem Valid.filled_le_length (h : buf.Valid) : buf.filled ≤ buf.memory.length :=
  h.filled_le.trans h.initialized_le

theorem Valid.length_filledPart (h : buf.Valid) : buf.filledPart.length = buf.filled :=
  List.length_take_of_le h.filled_le_length

theorem valid_take : (buf.take n).Valid :=
  ⟨le_rfl, Nat.zero_le _, fun i hi => absurd hi (Nat.not_lt_zero i)⟩

theorem length_take : (buf.take n).memory.length = min buf.remaining n := by
  have hlen : (buf.memory.drop buf.filled).length = buf.remaining := List.length_drop
  rw [ReadBuf.take, List.length_take, hlen]
  omega

theorem remaining_take : (buf.take n).remaining = min buf.remaining n := by
  rw [remaining, length_take]
  rfl

theorem getElem?_take {i : ℕ} (h : (buf.take n).memory[i]? = some none) :
    buf.memory[buf.filled + i]? = some none := by
  rw [ReadBuf.take, List.getElem?_take] at h
  split_ifs at h
  rwa [List.getElem?_drop] at h

/-- Outside the part that was lent nothing has changed. -/
theorem getElem?_giveBack (hbuf : buf.filled ≤ buf.memory.length) (i : ℕ) :
    (buf.giveBack lent).memory[i]? =
      if buf.filled ≤ i ∧ i < buf.filled + lent.memory.length then lent.memory[i - buf.filled]?
      else buf.memory[i]? := by
  have hlen : (buf.memory.take buf.filled).length = buf.filled := List.length_take_of_le hbuf
  rw [ReadBuf.giveBack]
  by_cases hfront : i < buf.filled
  · rw [List.getElem?_append_left (by omega), if_neg (fun h => absurd h.1 (not_le.mpr hfront)),
      List.getElem?_take_of_lt hfront]
  · rw [List.getElem?_append_right (hlen.symm ▸ not_lt.mp hfront), hlen]
    by_cases hlent : i < buf.filled + lent.memory.length
    · rw [List.getElem?_append_left (by omega), if_pos ⟨not_lt.mp hfront, hlent⟩]
    · rw [List.getElem?_append_right (by omega), if_neg (fun h => hlent h.2), List.getElem?_drop]
      congr 1
      omega

theorem Valid.fills_nil (h : buf.Valid) : buf.Fills [] buf :=
  ⟨h, rfl, rfl, (List.append_nil _).symm, fun _ => id⟩

namespace Fills

/-- What was filled before is as it was. -/
theorem take_filledPart (h : buf.Fills bytes after) (hbuf : buf.Valid) :
    after.filledPart.take buf.filled = buf.filledPart := by
  rw [h.part_eq, ← hbuf.length_filledPart, List.take_left]

/-- What has been filled in are the bytes. -/
theorem drop_filledPart (h : buf.Fills bytes after) (hbuf : buf.Valid) :
    after.filledPart.drop buf.filled = bytes.map some := by
  rw [h.part_eq, ← hbuf.length_filledPart, List.drop_left]

theorem length_le (h : buf.Fills bytes after) : bytes.length ≤ buf.remaining := by
  have hle := h.valid.filled_le_length
  rw [h.filled_eq, h.length_eq] at hle
  rw [remaining]
  omega

/-- **Lending.** What is filled into the part of a buffer is filled into the
buffer, once it is declared to be initialized there. -/
theorem giveBack (h : (buf.take n).Fills bytes lent) (hbuf : buf.Valid) :
    ∃ after, ((buf.giveBack lent).assumeInit lent.filled).advance lent.filled = some after ∧
      buf.Fills bytes after := by
  have hfilled : lent.filled = bytes.length := by
    rw [h.filled_eq]
    exact Nat.zero_add _
  have hlen : lent.memory.length = min buf.remaining n := by rw [h.length_eq, length_take]
  have hroom : buf.filled + lent.memory.length ≤ buf.memory.length := by
    have hle := hbuf.filled_le_length
    have hmin := min_le_left buf.remaining n
    rw [← hlen, remaining] at hmin
    omega
  have hfits : bytes.length ≤ lent.memory.length := hfilled ▸ h.valid.filled_le_length
  have hkept : ∀ i : ℕ, (buf.giveBack lent).memory[i]? = some none → buf.memory[i]? = some none := by
    intro i hi
    rw [getElem?_giveBack hbuf.filled_le_length] at hi
    split_ifs at hi with hlent
    · have hnone := getElem?_take (h.kept _ hi)
      rwa [Nat.add_sub_cancel' hlent.1] at hnone
    · exact hi
  have hlength : (buf.giveBack lent).memory.length = buf.memory.length := by
    have hle := hbuf.filled_le_length
    simp only [ReadBuf.giveBack, List.length_append, List.length_take, List.length_drop]
    omega
  have hpart : (buf.giveBack lent).memory.take (buf.filled + bytes.length) =
      buf.filledPart ++ bytes.map some := by
    have hlent : lent.memory.take bytes.length = bytes.map some := by
      have hpart := h.part_eq
      rw [filledPart, hfilled] at hpart
      exact hpart
    rw [ReadBuf.giveBack, ← filledPart, ← hbuf.length_filledPart, List.take_length_add_append,
      List.take_append_of_le_length hfits, hlent]
  refine ⟨_, advance_assumeInit, ⟨le_max_right _ _, ?_, fun i hi hnone => ?_⟩, hlength, ?_, ?_, hkept⟩
  · have hend : buf.filled + lent.filled ≤ buf.memory.length := by omega
    exact max_le (hlength.symm ▸ hbuf.initialized_le) (hlength.symm ▸ hend)
  · rcases lt_or_ge i buf.initialized with hi' | hi'
    · exact hbuf.written i hi' (hkept i hnone)
    · -- behind what was initialized is only what the reader has filled in
      have hi : i < buf.filled + lent.filled := (lt_max_iff.mp hi).resolve_left (not_lt.mpr hi')
      have hfilled_le := hbuf.filled_le
      rw [getElem?_giveBack hbuf.filled_le_length, if_pos (by omega)] at hnone
      exact h.valid.written _ (lt_of_lt_of_le (by omega) h.valid.filled_le) hnone
  · exact congrArg (buf.filled + ·) hfilled
  · rw [← hpart, ← hfilled]
    rfl

/-- Where nothing has been filled in, the part need only be taken back. -/
theorem giveBack_nil (h : (buf.take n).Fills [] lent) (hbuf : buf.Valid) :
    buf.Fills [] (buf.giveBack lent) := by
  obtain ⟨after, hafter, hfills⟩ := h.giveBack hbuf
  have hfilled : lent.filled = 0 := h.filled_eq
  have hsame : after = buf.giveBack lent := by
    have hinit : max buf.initialized buf.filled = buf.initialized := max_eq_left hbuf.filled_le
    rw [hfilled, advance_assumeInit] at hafter
    rw [← Option.some.inj hafter]
    simp only [ReadBuf.giveBack, Nat.add_zero, hinit]
  rwa [hsame] at hfills

end Fills

/-- **Writing.** Bytes that fit are filled in. -/
theorem Valid.putSlice (h : buf.Valid) (hfits : bytes.length ≤ buf.remaining) :
    ∃ after, buf.putSlice bytes = some after ∧ buf.Fills bytes after := by
  have hwritten : ∀ i : ℕ, (bytes.map some)[i]? ≠ some none := by
    intro i hi
    obtain ⟨b, -, hb⟩ := List.mem_map.mp (List.mem_of_getElem? hi)
    exact absurd hb (Option.some_ne_none b)
  have hlent : (buf.take bytes.length).Fills bytes ⟨bytes.map some, bytes.length, bytes.length⟩ := by
    refine ⟨⟨le_rfl, (List.length_map _).ge, fun i _ => hwritten i⟩, ?_, ?_, ?_, fun i hi => absurd hi (hwritten i)⟩
    · rw [length_take, min_eq_right hfits, List.length_map]
    · exact (Nat.zero_add _).symm
    · exact List.take_of_length_le (List.length_map _).le
  obtain ⟨after, hafter, hfills⟩ := hlent.giveBack h
  refine ⟨after, ?_, hfills⟩
  rw [← hafter, advance_assumeInit, ReadBuf.putSlice, if_pos hfits]
  simp only [ReadBuf.giveBack, List.length_map]

end

end ReadBuf

/-! ### Readers -/

inductive Poll (α : Type*) where
  | pending
  | ready (value : α)
  deriving DecidableEq

inductive ErrorKind where
  | invalidData
  | other
  deriving DecidableEq

structure IoError where
  kind : ErrorKind
  message : String
  deriving DecidableEq

/-- `poll_read`: the result, the reader and the buffer; `none` where it panics. -/
class AsyncRead (ρ : Type) where
  pollRead : ρ → ReadBuf → Option (Poll (Except IoError Unit) × ρ × ReadBuf)

export AsyncRead (pollRead)

/-- What a poll that does not fail comes to: nothing yet, or the next bytes. -/
inductive Polled {ρ : Type} (left : ρ → List UInt8) (patience : ρ → ℕ) (r : ρ) (buf : ReadBuf) :
    Option (Poll (Except IoError Unit) × ρ × ReadBuf) → Prop
  | pending {r' : ρ} {buf' : ReadBuf} : left r' = left r → patience r' < patience r →
      buf.Fills [] buf' → Polled left patience r buf (some (.pending, r', buf'))
  | ready {r' : ρ} {buf' : ReadBuf} {bytes : List UInt8} : left r = bytes ++ left r' →
      (bytes = [] → left r = []) → patience r' ≤ patience r → buf.Fills bytes buf' →
      Polled left patience r buf (some (.ready (.ok ()), r', buf'))

/-- Readers of bytes that do not fail, with the bytes that are left to be read
and a bound on the polls that may be pending yet. -/
structure Source (ρ : Type) [AsyncRead ρ] where
  left : ρ → List UInt8
  patience : ρ → ℕ
  polled : ∀ r (buf : ReadBuf), buf.Valid → 0 < buf.remaining → Polled left patience r buf (pollRead r buf)

/-! ### Chunks -/

/-- What a stream does: it lets a poll wait, or has a chunk of bytes. -/
inductive Arrival where
  | pending
  | chunk (b : UInt8) (bytes : List UInt8)
  deriving DecidableEq

/-- What does not fit into a buffer is left for the next. -/
def leave (bytes : List UInt8) (arrivals : List Arrival) : List Arrival :=
  match bytes with
  | [] => arrivals
  | b :: bytes => .chunk b bytes :: arrivals

instance : AsyncRead (List Arrival) where
  pollRead arrivals buf :=
    match arrivals with
    | [] => some (.ready (.ok ()), [], buf)
    | .pending :: arrivals => some (.pending, arrivals, buf)
    | .chunk b bytes :: arrivals =>
      (buf.putSlice ((b :: bytes).take buf.remaining)).map fun buf' =>
        (.ready (.ok ()), leave ((b :: bytes).drop buf.remaining) arrivals, buf')

def Arrival.bytes : Arrival → List UInt8
  | .pending => []
  | .chunk b bytes => b :: bytes

section

variable {b : UInt8} {bytes : List UInt8} {arrivals : List Arrival} {buf : ReadBuf}

theorem bytes_leave : (leave bytes arrivals).flatMap Arrival.bytes = bytes ++ arrivals.flatMap Arrival.bytes := by
  cases bytes <;> rfl

theorem count_leave : (leave bytes arrivals).count .pending = arrivals.count .pending := by
  cases bytes with
  | nil => rfl
  | cons b bytes => exact List.count_cons_of_ne (fun h => by cases h)

theorem count_pending_lt : arrivals.count .pending < (Arrival.pending :: arrivals).count .pending := by
  rw [List.count_cons_self]
  exact Nat.lt_succ_self _

/-- A poll takes from the first chunk what fits. -/
theorem polled_chunk (hbuf : buf.Valid) (hroom : 0 < buf.remaining) :
    Polled (fun arrivals => arrivals.flatMap Arrival.bytes) (fun arrivals => arrivals.count .pending)
      (.chunk b bytes :: arrivals) buf (pollRead (Arrival.chunk b bytes :: arrivals) buf) := by
  obtain ⟨buf', hput, hfills⟩ := hbuf.putSlice (List.length_take_le buf.remaining (b :: bytes))
  have hpoll : pollRead (Arrival.chunk b bytes :: arrivals) buf =
      some (.ready (.ok ()), leave ((b :: bytes).drop buf.remaining) arrivals, buf') :=
    congrArg (Option.map _) hput
  rw [hpoll]
  refine .ready ?_ (fun hnil => ?_) ?_ hfills
  · rw [bytes_leave, ← List.append_assoc, List.take_append_drop]
    rfl
  · obtain ⟨n, hn⟩ := Nat.exists_eq_succ_of_ne_zero hroom.ne'
    rw [hn] at hnil
    cases hnil
  · rw [count_leave]
    exact List.count_le_count_cons

end

/-- The bytes that arrive in chunks, with waits in between. -/
def chunks : Source (List Arrival) where
  left arrivals := arrivals.flatMap Arrival.bytes
  patience arrivals := arrivals.count .pending
  polled
    | [], _, hbuf, _ => .ready rfl (fun _ => rfl) le_rfl hbuf.fills_nil
    | .pending :: _, _, hbuf, _ => .pending rfl count_pending_lt hbuf.fills_nil
    | .chunk _ _ :: _, _, hbuf, hroom => polled_chunk hbuf hroom

/-! ### Consumers -/

/-- A buffer with room. -/
structure OpenBuf where
  buf : ReadBuf
  valid : buf.Valid
  room : 0 < buf.remaining

/-- The buffers before and after each poll, and what the consumer was told last;
`none` if it has no more buffers before it is told anything. -/
structure Drive where
  polls : List (OpenBuf × ReadBuf)
  ending : Option (Except IoError Unit)

/-- What has been filled into the buffers. -/
def Drive.delivered (d : Drive) : List (Option UInt8) :=
  d.polls.flatMap fun poll => poll.2.filledPart.drop poll.1.buf.filled

def Drive.cons (poll : OpenBuf × ReadBuf) (d : Drive) : Drive := { d with polls := poll :: d.polls }

/-- The reader is polled with one buffer after the other, up to an error or the
end, which is a poll that fills in nothing. -/
def drive {ρ : Type} [AsyncRead ρ] : ρ → List OpenBuf → Option Drive
  | _, [] => some ⟨[], none⟩
  | r, buf :: bufs =>
    match pollRead r buf.buf with
    | none => none
    | some (.pending, r', buf') => (drive r' bufs).map (Drive.cons (buf, buf'))
    | some (.ready (.error e), _, buf') => some ⟨[(buf, buf')], some (.error e)⟩
    | some (.ready (.ok ()), r', buf') =>
      if buf'.filled = buf.buf.filled then some ⟨[(buf, buf')], some (.ok ())⟩
      else (drive r' bufs).map (Drive.cons (buf, buf'))

end Lib
