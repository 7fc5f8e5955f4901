/-
# Hexadecimal text

Bytes as two digits each, in lower case. Read are digits in either case, so a
text reads as these bytes exactly if in lower case it is what they are written
as (`decode_eq_some`).

Key definitions: `encode`, `val`, `decode`.
Key theorems: `val_eq_some`, `decode_eq_some`, `decode_encode`.
-/
import Mathlib.Tactic.Common
import Mathlib.Tactic.IntervalCases

namespace Lib
namespace Hex

/-- A byte, the high half first. -/
def digits (b : UInt8) : List Char := [Nat.digitChar (b.toNat / 16), Nat.digitChar (b.toNat % 16)]

def encode (bs : List UInt8) : List Char := bs.flatMap digits

/-- The value of a digit. -/
def val (c : Char) : Option ℕ :=
  if 65 ≤ c.toNat ∧ c.toNat ≤ 70 then some (c.toNat - 65 + 10)
  else if 97 ≤ c.toNat ∧ c.toNat ≤ 102 then some (c.toNat - 97 + 10)
  else if 48 ≤ c.toNat ∧ c.toNat ≤ 57 then some (c.toNat - 48)
  else none

/-- `none` for an odd number of digits and where something else is between them. -/
def decode : List Char → Option (List UInt8)
  | [] => some []
  | [_] => none
  | a :: b :: cs =>
    match val a, val b with
    | some x, some y => (decode cs).map (UInt8.ofNat (16 * x + y) :: ·)
    | _, _ => none

/-- The digit of a value, as a number. -/
theorem toNat_digitChar {v : ℕ} (hv : v < 16) :
    (Nat.digitChar v).toNat = if v < 10 then 48 + v else 87 + v := by
  interval_cases v <;> rfl

theorem toNat_toLower (c : Char) :
    c.toLower.toNat = if 65 ≤ c.toNat ∧ c.toNat ≤ 90 then c.toNat + 32 else c.toNat := by
  have hupper : (c.val ≥ 'A'.val ∧ c.val ≤ 'Z'.val) ↔ 65 ≤ c.toNat ∧ c.toNat ≤ 90 := by
    rw [ge_iff_le, UInt32.le_iff_toNat_le, UInt32.le_iff_toNat_le]
    rfl
  unfold Char.toLower
  split_ifs with hc hn hn
  · have hsum : (c.val + ('a'.val - 'A'.val)).toNat = (c.toNat + 32) % 2 ^ 32 := UInt32.toNat_add ..
    have hsmall : c.toNat + 32 < 2 ^ 32 := by omega
    exact hsum.trans (Nat.mod_eq_of_lt hsmall)
  · exact absurd (hupper.mp hc) hn
  · exact absurd (hupper.mpr hn) hc
  · rfl

/-- A digit in either case is that of its value. -/
theorem val_eq_some {c : Char} {v : ℕ} : val c = some v ↔ v < 16 ∧ c.toLower = Nat.digitChar v := by
  have hdigit : c.toLower = Nat.digitChar v ↔ c.toLower.toNat = (Nat.digitChar v).toNat :=
    Char.toNat_inj.symm
  rw [hdigit, toNat_toLower, val]
  constructor
  · intro h
    have hv : v < 16 := by
      split_ifs at h <;> cases h <;> omega
    rw [toNat_digitChar hv]
    refine ⟨hv, ?_⟩
    split_ifs at h <;> cases h <;> split_ifs <;> omega
  · rintro ⟨hv, h⟩
    rw [toNat_digitChar hv] at h
    split_ifs at h ⊢ <;> first | omega | exact congrArg some (by omega)

theorem encode_cons (b : UInt8) (bs : List UInt8) :
    encode (b :: bs) = Nat.digitChar (b.toNat / 16) :: Nat.digitChar (b.toNat % 16) :: encode bs := rfl

/-- Two digits are one byte, and each byte is two digits. -/
theorem val_val_eq_some {a b : Char} {y : UInt8} :
    (∃ x z, val a = some x ∧ val b = some z ∧ UInt8.ofNat (16 * x + z) = y) ↔
      a.toLower = Nat.digitChar (y.toNat / 16) ∧ b.toLower = Nat.digitChar (y.toNat % 16) := by
  have hy : y.toNat < 256 := y.toNat_lt
  constructor
  · rintro ⟨x, z, hx, hz, rfl⟩
    obtain ⟨hx16, hxa⟩ := val_eq_some.mp hx
    obtain ⟨hz16, hzb⟩ := val_eq_some.mp hz
    have hn : (UInt8.ofNat (16 * x + z)).toNat = 16 * x + z :=
      UInt8.toNat_ofNat_of_lt' (show 16 * x + z < 256 by omega)
    rw [hn, hxa, hzb, show (16 * x + z) / 16 = x by omega, show (16 * x + z) % 16 = z by omega]
    exact ⟨rfl, rfl⟩
  · rintro ⟨ha, hb⟩
    refine ⟨y.toNat / 16, y.toNat % 16, val_eq_some.mpr ⟨by omega, ha⟩,
      val_eq_some.mpr ⟨by omega, hb⟩, ?_⟩
    rw [Nat.div_add_mod, UInt8.ofNat_toNat]

/-- **Reading.** What reads as these bytes is in lower case what they are written as. -/
theorem decode_eq_some : ∀ {cs : List Char} {bs : List UInt8},
    decode cs = some bs ↔ cs.map Char.toLower = encode bs
  | [], [] => by simp [decode, encode]
  | [], y :: bs => by simp [decode, encode_cons]
  | [a], [] => by simp [decode, encode]
  | [a], y :: bs => by simp [decode, encode_cons]
  | a :: b :: cs, [] => by
    unfold decode
    split
    · simp [encode]
    · simp [encode]
  | a :: b :: cs, y :: bs => by
    rw [encode_cons, List.map_cons, List.map_cons, List.cons.injEq, List.cons.injEq, ← and_assoc,
      ← val_val_eq_some, ← decode_eq_some]
    conv_lhs => unfold decode
    constructor
    · intro h
      split at h
      · next x z hx hz =>
        obtain ⟨bs', hbs, heq⟩ := Option.map_eq_some_iff.mp h
        obtain ⟨rfl, rfl⟩ := List.cons.inj heq
        exact ⟨⟨x, z, hx, hz, rfl⟩, hbs⟩
      · cases h
    · rintro ⟨⟨x, z, hx, hz, rfl⟩, hbs⟩
      rw [hx, hz]
      exact congrArg (Option.map _) hbs

theorem toLower_digitChar {v : ℕ} (hv : v < 16) : (Nat.digitChar v).toLower = Nat.digitChar v := by
  interval_cases v <;> rfl

/-- What is written reads as the bytes it was written from. -/
theorem decode_encode (bs : List UInt8) : decode (encode bs) = some bs := by
  rw [decode_eq_some]
  induction bs with
  | nil => rfl
  | cons b bs ih =>
    have hb : b.toNat < 256 := b.toNat_lt
    rw [encode_cons, List.map_cons, List.map_cons, ih, toLower_digitChar (by omega),
      toLower_digitChar (by omega)]

end Hex
end Lib
