/-
# Base64, the URL-safe alphabet without padding

Three bytes are four characters of six bits each; one or two bytes at the end
are two or three characters, whose last bits are zero. Decoding refuses what
encoding does not make: a character outside the alphabet, a single character at
the end, last bits that are not zero. What was encoded decodes to itself
(`decode_encode`).

Key definitions: `encode`, `decode`.
Key theorem: `decode_encode`.
-/
import Mathlib.Tactic.Common

namespace Lib
namespace Base64

/-- The character of six bits. -/
def sextetChar (n : ℕ) : Char :=
  if n < 26 then Char.ofNat (n + 65)
  else if n < 52 then Char.ofNat (n - 26 + 97)
  else if n < 62 then Char.ofNat (n - 52 + 48)
  else if n = 62 then '-'
  else '_'

/-- The six bits of a character. -/
def charSextet (c : Char) : Option ℕ :=
  if 'A' ≤ c ∧ c ≤ 'Z' then some (c.toNat - 65)
  else if 'a' ≤ c ∧ c ≤ 'z' then some (c.toNat - 97 + 26)
  else if '0' ≤ c ∧ c ≤ '9' then some (c.toNat - 48 + 52)
  else if c = '-' then some 62
  else if c = '_' then some 63
  else none

/-- Bytes in groups of six bits. -/
def sextets : List ℕ → List ℕ
  | a :: b :: c :: rest =>
    a / 4 :: (a % 4 * 16 + b / 16) :: (b % 16 * 4 + c / 64) :: c % 64 :: sextets rest
  | [a, b] => [a / 4, a % 4 * 16 + b / 16, b % 16 * 4]
  | [a] => [a / 4, a % 4 * 16]
  | [] => []

/-- Groups of six bits as bytes. -/
def octets : List ℕ → Option (List ℕ)
  | w :: x :: y :: z :: rest =>
    (octets rest).map fun tail => (w * 4 + x / 16) :: (x % 16 * 16 + y / 4) :: (y % 4 * 64 + z) :: tail
  | [w, x, y] => if y % 4 = 0 then some [w * 4 + x / 16, x % 16 * 16 + y / 4] else none
  | [w, x] => if x % 16 = 0 then some [w * 4 + x / 16] else none
  | [_] => none
  | [] => some []

def encode (bytes : List UInt8) : String :=
  String.ofList ((sextets (bytes.map UInt8.toNat)).map sextetChar)

def decode (text : String) : Option (List UInt8) :=
  (text.toList.mapM charSextet).bind fun groups => (octets groups).map fun bytes =>
    bytes.map UInt8.ofNat

theorem charSextet_sextetChar : ∀ n < 64, charSextet (sextetChar n) = some n := by decide

theorem sextets_lt : ∀ {bytes : List ℕ}, (∀ b ∈ bytes, b < 256) → ∀ n ∈ sextets bytes, n < 64
  | a :: b :: c :: rest, h, n, hn => by
    have ha : a < 256 := h a (by simp)
    have hb : b < 256 := h b (by simp)
    have hc : c < 256 := h c (by simp)
    have hrest : ∀ d ∈ rest, d < 256 := fun d hd => h d (by simp [hd])
    simp only [sextets, List.mem_cons] at hn
    rcases hn with rfl | rfl | rfl | rfl | hn
    · omega
    · omega
    · omega
    · omega
    · exact sextets_lt hrest n hn
  | [a, b], h, n, hn => by
    have ha : a < 256 := h a (by simp)
    have hb : b < 256 := h b (by simp)
    simp only [sextets, List.mem_cons, List.not_mem_nil, or_false] at hn
    omega
  | [a], h, n, hn => by
    have ha : a < 256 := h a (by simp)
    simp only [sextets, List.mem_cons, List.not_mem_nil, or_false] at hn
    omega
  | [], _, n, hn => by cases hn

theorem octets_sextets : ∀ {bytes : List ℕ}, (∀ b ∈ bytes, b < 256) →
    octets (sextets bytes) = some bytes
  | a :: b :: c :: rest, h => by
    have ha : a < 256 := h a (by simp)
    have hb : b < 256 := h b (by simp)
    have hc : c < 256 := h c (by simp)
    have hrest : ∀ d ∈ rest, d < 256 := fun d hd => h d (by simp [hd])
    have h1 : a / 4 * 4 + (a % 4 * 16 + b / 16) / 16 = a := by omega
    have h2 : (a % 4 * 16 + b / 16) % 16 * 16 + (b % 16 * 4 + c / 64) / 4 = b := by omega
    have h3 : (b % 16 * 4 + c / 64) % 4 * 64 + c % 64 = c := by omega
    rw [sextets, octets, octets_sextets hrest, Option.map_some, h1, h2, h3]
  | [a, b], h => by
    have ha : a < 256 := h a (by simp)
    have hb : b < 256 := h b (by simp)
    have h1 : a / 4 * 4 + (a % 4 * 16 + b / 16) / 16 = a := by omega
    have h2 : (a % 4 * 16 + b / 16) % 16 * 16 + b % 16 * 4 / 4 = b := by omega
    rw [sextets, octets, if_pos (by omega), h1, h2]
  | [a], h => by
    have ha : a < 256 := h a (by simp)
    have h1 : a / 4 * 4 + a % 4 * 16 / 16 = a := by omega
    rw [sextets, octets, if_pos (by omega), h1]
  | [], _ => rfl

theorem mapM_sextetChar : ∀ {groups : List ℕ}, (∀ n ∈ groups, n < 64) →
    (groups.map sextetChar).mapM charSextet = some groups
  | [], _ => rfl
  | n :: groups, h => by
    have hn : charSextet (sextetChar n) = some n := charSextet_sextetChar n (h n (by simp))
    have hrest := mapM_sextetChar fun m hm => h m (List.mem_cons_of_mem n hm)
    rw [List.map_cons, List.mapM_cons, hn, hrest]
    rfl

/-- **Round trip.** -/
theorem decode_encode (bytes : List UInt8) : decode (encode bytes) = some bytes := by
  have hbyte : ∀ b ∈ bytes.map UInt8.toNat, b < 256 := by
    intro b hb
    obtain ⟨c, -, rfl⟩ := List.mem_map.mp hb
    exact c.toNat_lt
  have hback : (bytes.map UInt8.toNat).map UInt8.ofNat = bytes := by
    rw [List.map_map]
    exact (List.map_congr_left fun b _ => UInt8.ofNat_toNat).trans (List.map_id bytes)
  unfold decode encode
  rw [String.toList_ofList, mapM_sextetChar (sextets_lt hbyte), Option.bind_some,
    octets_sextets hbyte, Option.map_some, hback]

end Base64
end Lib
