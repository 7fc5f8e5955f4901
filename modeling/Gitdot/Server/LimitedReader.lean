/-
# The reader that fails beyond a limit

`LimitedReader` bounds how much of a stream its consumer sees. It passes on at
most what is left of the limit; at the limit it probes the inner reader with a
buffer of its own, to tell the end from one byte too many.

So a consumer gets the first `limit` bytes, into whatever buffers it polls with,
and then the end or the error, and the error exactly if there are more
(`limitedReader_exact`).

Key definitions: `LimitedReader`, `LimitedReader.pollRead`, `Exact`.
Key theorems: `limitedReader_exact`.
-/
import Gitdot.Lib.AsyncRead
import Mathlib.Algebra.Group.Nat.Defs

namespace Gitdot

open Lib

/-- `LimitedReader`; the limit is a `u64`. -/
structure LimitedReader (ρ : Type) where
  inner : ρ
  read : ℕ
  limit : ℕ
  limit_lt : limit < 2 ^ 64

/-- `u64::saturating_add`. -/
def saturatingAdd (a b : ℕ) : ℕ := min (a + b) (2 ^ 64 - 1)

/-- What the error is that a reader fails with beyond its limit. -/
def limitError : IoError := ⟨.invalidData, "decompressed body exceeded configured limit"⟩

namespace LimitedReader

variable {ρ : Type} [AsyncRead ρ]

def new (inner : ρ) (limit : UInt64) : LimitedReader ρ := ⟨inner, 0, limit.toNat, limit.toNat_lt⟩

instance : AsyncRead (LimitedReader ρ) where
  pollRead me buf :=
    let remaining := me.limit - me.read
    if remaining = 0 then
      match pollRead me.inner (ReadBuf.new [0]) with
      | none => none
      | some (.pending, inner, _) => some (.pending, { me with inner }, buf)
      | some (.ready (.error e), inner, _) => some (.ready (.error e), { me with inner }, buf)
      | some (.ready (.ok ()), inner, probeBuf) =>
        if probeBuf.filledPart = [] then some (.ready (.ok ()), { me with inner }, buf)
        else some (.ready (.error limitError), { me with inner }, buf)
    else
      let max := min buf.remaining remaining
      match pollRead me.inner (buf.take max) with
      | none => none
      | some (.pending, inner, bounded) => some (.pending, { me with inner }, buf.giveBack bounded)
      | some (.ready (.error e), inner, bounded) =>
        some (.ready (.error e), { me with inner }, buf.giveBack bounded)
      | some (.ready (.ok ()), inner, bounded) =>
        let written := bounded.filled
        (((buf.giveBack bounded).assumeInit written).advance written).map fun buf =>
          (.ready (.ok ()), { me with inner, read := saturatingAdd me.read written }, buf)

/-- What a poll comes to, if the inner reader does not fail. -/
inductive Polled (source : Source ρ) (me : LimitedReader ρ) (buf : ReadBuf) :
    Option (Poll (Except IoError Unit) × LimitedReader ρ × ReadBuf) → Prop
  | pending {inner : ρ} {buf' : ReadBuf} : source.left inner = source.left me.inner →
      source.patience inner < source.patience me.inner → buf.Fills [] buf' →
      Polled source me buf (some (.pending, { me with inner }, buf'))
  | finished {inner : ρ} {buf' : ReadBuf} : source.left me.inner = [] → buf.Fills [] buf' →
      Polled source me buf (some (.ready (.ok ()), { me with inner }, buf'))
  | exceeded {inner : ρ} {buf' : ReadBuf} : me.limit - me.read = 0 → source.left me.inner ≠ [] →
      buf.Fills [] buf' → Polled source me buf (some (.ready (.error limitError), { me with inner }, buf'))
  | passed {inner : ρ} {buf' : ReadBuf} {bytes : List UInt8} : bytes ≠ [] →
      bytes.length ≤ me.limit - me.read → source.left me.inner = bytes ++ source.left inner →
      source.patience inner ≤ source.patience me.inner → buf.Fills bytes buf' →
      Polled source me buf
        (some (.ready (.ok ()), { me with inner, read := me.read + bytes.length }, buf'))

section Polls

variable (source : Source ρ) (me : LimitedReader ρ) {buf : ReadBuf}

/-- At the limit: nothing of the probe is filled into the buffer. -/
theorem polled_probe (hbuf : buf.Valid) (hlimit : me.limit - me.read = 0) :
    Polled source me buf (pollRead me buf) := by
  have hprobe := source.polled me.inner (ReadBuf.new [0]) (ReadBuf.valid_new [0]) (by decide)
  simp only [pollRead, hlimit, if_true]
  generalize AsyncRead.pollRead me.inner (ReadBuf.new [0]) = result at hprobe ⊢
  cases hprobe with
  | pending hleft hpatience _ => exact .pending hleft hpatience hbuf.fills_nil
  | @ready inner probeBuf bytes hleft hend hpatience hfills =>
    have hpart : probeBuf.filledPart = bytes.map some := hfills.part_eq
    dsimp only
    split_ifs with hnone
    · refine .finished (hend ?_) hbuf.fills_nil
      rw [hpart] at hnone
      exact List.map_eq_nil_iff.mp hnone
    · refine .exceeded hlimit (fun hleft' => hnone ?_) hbuf.fills_nil
      rw [hleft'] at hleft
      rw [hpart, (List.append_eq_nil_iff.mp hleft.symm).1]
      rfl

/-- Below the limit: what the inner reader has filled into the part that was lent. -/
theorem polled_pass (hbuf : buf.Valid) (hroom : 0 < buf.remaining) (hlimit : me.limit - me.read ≠ 0) :
    Polled source me buf (pollRead me buf) := by
  have hpos : 0 < (buf.take (min buf.remaining (me.limit - me.read))).remaining := by
    rw [ReadBuf.remaining_take]
    omega
  have hinner := source.polled me.inner _ ReadBuf.valid_take hpos
  simp only [pollRead, if_neg hlimit]
  generalize AsyncRead.pollRead me.inner (buf.take _) = result at hinner ⊢
  cases hinner with
  | pending hleft hpatience hfills => exact .pending hleft hpatience (hfills.giveBack_nil hbuf)
  | @ready inner bounded bytes hleft hend hpatience hfills =>
    obtain ⟨after, hafter, hgiven⟩ := hfills.giveBack hbuf
    have hwritten : bounded.filled = bytes.length := hfills.filled_eq.trans (Nat.zero_add _)
    have hfits : bytes.length ≤ me.limit - me.read := by
      have hle := hfills.length_le
      rw [ReadBuf.remaining_take] at hle
      omega
    have hread : saturatingAdd me.read bytes.length = me.read + bytes.length := by
      have hlt := me.limit_lt
      unfold saturatingAdd
      omega
    dsimp only
    rw [hafter, Option.map_some, hwritten, hread]
    by_cases hnil : bytes = []
    · subst hnil
      exact .finished (hend rfl) hgiven
    · exact .passed hnil hfits hleft hpatience hgiven

theorem polled (hbuf : buf.Valid) (hroom : 0 < buf.remaining) :
    Polled source me buf (pollRead me buf) := by
  by_cases hlimit : me.limit - me.read = 0
  · exact polled_probe source me hbuf hlimit
  · exact polled_pass source me hbuf hroom hlimit

end Polls

end LimitedReader

/-! ### Whole streams -/

/-- The first bytes up to the limit are delivered behind what was in the buffers,
and the end is an error exactly if there are more. -/
structure Exact (data : List UInt8) (limit : ℕ) (d : Drive) : Prop where
  unaltered : ∀ poll ∈ d.polls, poll.2.Valid ∧
    poll.2.filledPart.take poll.1.buf.filled = poll.1.buf.filledPart
  delivered_prefix : d.delivered <+: (data.take limit).map some
  complete : d.ending ≠ none → d.delivered = (data.take limit).map some
  ending : ∀ e ∈ d.ending, e = if limit < data.length then .error limitError else .ok ()

namespace Exact

variable {data rest bytes : List UInt8} {limit : ℕ} {d : Drive} {buf : OpenBuf} {buf' : ReadBuf}

/-- The last poll fills in nothing. -/
theorem last {e : Except IoError Unit} (hfills : buf.buf.Fills [] buf')
    (hnone : data.take limit = [])
    (he : e = if limit < data.length then .error limitError else .ok ()) :
    Exact data limit ⟨[(buf, buf')], some e⟩ := by
  have hdelivered : Drive.delivered ⟨[(buf, buf')], some e⟩ = [] := by
    rw [Drive.delivered, List.flatMap_singleton, hfills.drop_filledPart buf.valid]
    rfl
  refine ⟨?_, ?_, fun _ => ?_, ?_⟩
  · intro poll hpoll
    obtain rfl := List.mem_singleton.mp hpoll
    exact ⟨hfills.valid, hfills.take_filledPart buf.valid⟩
  · rw [hdelivered]
    exact List.nil_prefix
  · rw [hdelivered, hnone]
    rfl
  · intro f hf
    rw [← Option.some.inj hf, he]

/-- Before a run that is exact the next bytes have been delivered. -/
theorem cons (hfills : buf.buf.Fills bytes buf') (hdata : data = bytes ++ rest)
    (hfits : bytes.length ≤ limit) (h : Exact rest (limit - bytes.length) d) :
    Exact data limit (d.cons (buf, buf')) := by
  have hdelivered : (d.cons (buf, buf')).delivered = bytes.map some ++ d.delivered := by
    rw [Drive.delivered, Drive.cons, List.flatMap_cons, hfills.drop_filledPart buf.valid]
    rfl
  have htake : (data.take limit).map some = bytes.map some ++ (rest.take (limit - bytes.length)).map some := by
    rw [hdata, List.take_append, List.take_of_length_le hfits, List.map_append]
  refine ⟨?_, ?_, fun hend => ?_, fun e he => ?_⟩
  · intro poll hpoll
    rcases List.mem_cons.mp hpoll with rfl | hpoll
    · exact ⟨hfills.valid, hfills.take_filledPart buf.valid⟩
    · exact h.unaltered poll hpoll
  · rw [hdelivered, htake]
    exact (List.prefix_append_right_inj _).mpr h.delivered_prefix
  · rw [hdelivered, htake, h.complete hend]
  · have hlen : limit < data.length ↔ limit - bytes.length < rest.length := by
      rw [hdata, List.length_append]
      omega
    rw [h.ending e he]
    simp only [hlen]

end Exact

section Drives

variable {ρ : Type} [AsyncRead ρ] (source : Source ρ)

/-- Every poll waits, delivers, or is the last. -/
theorem drive_exact (me : LimitedReader ρ) (bufs : List OpenBuf) :
    ∃ d, drive me bufs = some d ∧ Exact (source.left me.inner) (me.limit - me.read) d ∧
      (source.patience me.inner + (source.left me.inner).length < bufs.length → d.ending ≠ none) := by
  induction bufs generalizing me with
  | nil =>
    refine ⟨⟨[], none⟩, rfl, ⟨?_, List.nil_prefix, fun h => absurd rfl h, ?_⟩, ?_⟩
    · intro poll hpoll
      cases hpoll
    · intro e he
      cases he
    · intro hlt
      exact absurd hlt (Nat.not_lt_zero _)
  | cons buf bufs ih =>
    have hpolled := me.polled source buf.valid buf.room
    unfold drive
    generalize pollRead me buf.buf = result at hpolled ⊢
    cases hpolled with
    | @pending inner buf' hleft hpatience hfills =>
      obtain ⟨d, hd, hexact, hends⟩ := ih { me with inner }
      dsimp only at hexact hends
      refine ⟨d.cons (buf, buf'), congrArg (Option.map _) hd, ?_, ?_⟩
      · exact hexact.cons hfills hleft.symm (Nat.zero_le _)
      · intro hlt
        refine hends ?_
        rw [hleft]
        rw [List.length_cons] at hlt
        omega
    | @finished inner buf' hleft hfills =>
      have hsame : buf'.filled = buf.buf.filled := hfills.filled_eq
      refine ⟨_, if_pos hsame, Exact.last hfills ?_ ?_, fun _ h => by cases h⟩
      · rw [hleft, List.take_nil]
      · rw [hleft]
        exact (if_neg (Nat.not_lt_zero _)).symm
    | @exceeded inner buf' hlimit hleft hfills =>
      refine ⟨_, rfl, Exact.last hfills ?_ ?_, fun _ h => by cases h⟩
      · rw [hlimit, List.take_zero]
      · rw [hlimit, if_pos (List.length_pos_of_ne_nil hleft)]
    | @passed inner buf' bytes hne hfits hleft hpatience hfills =>
      obtain ⟨d, hd, hexact, hends⟩ := ih { me with inner, read := me.read + bytes.length }
      dsimp only at hexact hends
      have hpos := List.length_pos_of_ne_nil hne
      have hmore : buf'.filled ≠ buf.buf.filled := by
        rw [hfills.filled_eq]
        omega
      refine ⟨d.cons (buf, buf'), (if_neg hmore).trans (congrArg (Option.map _) hd), ?_, ?_⟩
      · refine Exact.cons hfills hleft hfits ?_
        rw [Nat.sub_sub]
        exact hexact
      · intro hlt
        refine hends ?_
        rw [hleft, List.length_append, List.length_cons] at hlt
        omega

/-- **The limit.** Whatever the stream, the limit and the buffers: no poll
panics, the consumer gets the first bytes up to the limit and is told of an error
exactly if there are more, and is told so after so many polls. -/
theorem limitedReader_exact (inner : ρ) (limit : UInt64) (bufs : List OpenBuf) :
    ∃ d, drive (LimitedReader.new inner limit) bufs = some d ∧
      Exact (source.left inner) limit.toNat d ∧
      (source.patience inner + (source.left inner).length < bufs.length → d.ending ≠ none) :=
  drive_exact source (LimitedReader.new inner limit) bufs

end Drives

end Gitdot
