/-
# Strings cut by bytes, numerals, and numbers as bytes

The cut of a string at a byte offset, which fails where the offset is inside a
character (`splitAt`), and at the last of a kind of character (`rsplitOnce`).
Integers of 64 bits read from decimal text (`parseI64`), and text made of
bytes that may not be UTF-8 (`toStringLossy`).

`Numerals` are a codec of numbers below a bound as strings of digits: what has
been encoded decodes to itself, also behind zeros, and what decodes is an
encoding behind zeros. So numerals of one width stand for one number each
(`Numerals.eq_padded`), and a number that fits the width has one
(`Numerals.decode_padded`). Positional notation to the base 62 is one
(`base62`). A `Varchar` is a text of a bounded length, as a column holds it.

Key definitions: `splitAt`, `IsCharBoundary`, `rsplitOnce`, `parseI64`,
`toStringLossy`, `Numerals`, `Numerals.padded`, `base62`, `toBeBytes`,
`ofBeBytes`, `Varchar`.
Key theorems: `splitAt_eq_some`, `rsplitOnce_eq_some`, `parseI64_toString`,
`Numerals.eq_padded`, `Numerals.decode_padded`, `ofBeBytes_toBeBytes`,
`toBeBytes_ofBeBytes`.
-/
import Mathlib.Data.Nat.Digits.Lemmas
import Mathlib.Data.String.Basic

namespace Lib
namespace Text

open String (utf8Len)

/-! ### Cuts -/

/-- `split_at`, `none` where it panics. -/
def splitAt : ℕ → List Char → Option (List Char × List Char)
  | 0, cs => some ([], cs)
  | _ + 1, [] => none
  | n + 1, c :: cs =>
    if c.utf8Size ≤ n + 1 then (splitAt (n + 1 - c.utf8Size) cs).map fun x => (c :: x.1, x.2) else none

section Cuts

variable {cs a b : List Char} {n : ℕ}

/-- Of characters of one byte there are as many as bytes. -/
theorem utf8Len_of_ascii (h : ∀ c ∈ cs, c.utf8Size = 1) : utf8Len cs = cs.length := by
  induction cs with
  | nil => rfl
  | cons c cs ih =>
    rw [String.utf8Len_cons, h c List.mem_cons_self, ih fun d hd => h d (List.mem_cons_of_mem c hd),
      List.length_cons]

/-- A string can be cut behind any of its parts. -/
theorem splitAt_append : splitAt (utf8Len a) (a ++ b) = some (a, b) := by
  induction a with
  | nil =>
    unfold splitAt
    rfl
  | cons c a ih =>
    have hpos := c.utf8Size_pos
    obtain ⟨n, hn⟩ : ∃ n, utf8Len (c :: a) = n + 1 := ⟨utf8Len a + c.utf8Size - 1, by
      rw [String.utf8Len_cons]
      omega⟩
    have hrest : n + 1 - c.utf8Size = utf8Len a := by
      rw [← hn, String.utf8Len_cons, Nat.add_sub_cancel]
    rw [hn, List.cons_append]
    unfold splitAt
    rw [hrest, ih, if_pos (by rw [← hn, String.utf8Len_cons]; omega)]
    rfl

/-- **Cuts.** The two parts are the string, and the first has so many bytes. -/
theorem splitAt_eq_some : splitAt n cs = some (a, b) ↔ cs = a ++ b ∧ utf8Len a = n := by
  constructor
  · intro h
    induction cs generalizing n a with
    | nil =>
      cases n with
      | zero =>
        obtain ⟨rfl, rfl⟩ := Prod.mk.inj (Option.some.inj h)
        exact ⟨rfl, rfl⟩
      | succ n => cases h
    | cons c cs ih =>
      cases n with
      | zero =>
        obtain ⟨rfl, rfl⟩ := Prod.mk.inj (Option.some.inj h)
        exact ⟨rfl, rfl⟩
      | succ n =>
        unfold splitAt at h
        split_ifs at h with hfits
        obtain ⟨⟨a', b'⟩, hsplit, heq⟩ := Option.map_eq_some_iff.mp h
        obtain ⟨rfl, rfl⟩ := Prod.mk.inj heq
        obtain ⟨rfl, hlen⟩ := ih hsplit
        refine ⟨rfl, ?_⟩
        rw [String.utf8Len_cons, hlen]
        omega
  · rintro ⟨rfl, rfl⟩
    exact splitAt_append

/-- The offset is in front of a character or behind all of them. -/
def IsCharBoundary (cs : List Char) (n : ℕ) : Prop := ∃ a b, cs = a ++ b ∧ utf8Len a = n

theorem isSome_splitAt : (splitAt n cs).isSome ↔ IsCharBoundary cs n := by
  rw [Option.isSome_iff_exists]
  constructor
  · rintro ⟨⟨a, b⟩, h⟩
    exact ⟨a, b, splitAt_eq_some.mp h⟩
  · rintro ⟨a, b, h⟩
    exact ⟨(a, b), splitAt_eq_some.mpr h⟩

/-- The part in front of a later cut is cut in the same way. -/
theorem isCharBoundary_append {m : ℕ} (hm : m ≤ utf8Len a) :
    IsCharBoundary (a ++ b) m ↔ IsCharBoundary a m := by
  constructor
  · rintro ⟨x, y, heq, rfl⟩
    rcases List.append_eq_append_iff.mp heq with ⟨z, rfl, -⟩ | ⟨z, rfl, -⟩
    · -- then the cut is behind `a`, and there is nothing between
      have hz : z = [] := by
        rw [String.utf8Len_append] at hm
        exact String.utf8Len_eq_zero.mp (by omega)
      subst hz
      exact ⟨a, [], (List.append_nil a).symm, by rw [List.append_nil]⟩
    · exact ⟨x, z, rfl, rfl⟩
  · rintro ⟨x, y, rfl, rfl⟩
    exact ⟨x, y ++ b, by rw [List.append_assoc], rfl⟩

end Cuts

/-! ### The last of a kind of character -/

/-- `rsplit_once`: in front of the last such character and behind it. -/
def rsplitOnce (c : Char) : List Char → Option (List Char × List Char)
  | [] => none
  | d :: cs =>
    match rsplitOnce c cs with
    | some (a, b) => some (d :: a, b)
    | none => if d = c then some ([], cs) else none

theorem rsplitOnce_eq_none {c : Char} {cs : List Char} : rsplitOnce c cs = none ↔ c ∉ cs := by
  induction cs with
  | nil => simp [rsplitOnce]
  | cons d cs ih =>
    unfold rsplitOnce
    cases h : rsplitOnce c cs with
    | some x =>
      have hmem : c ∈ cs := by
        by_contra hno
        exact nomatch h.symm.trans (ih.mpr hno)
      simp [hmem]
    | none =>
      have hno := ih.mp h
      by_cases hd : d = c
      · simp [hd]
      · simp [hd, hno, Ne.symm hd]

theorem rsplitOnce_eq_some {c : Char} {cs a b : List Char} :
    rsplitOnce c cs = some (a, b) ↔ cs = a ++ c :: b ∧ c ∉ b := by
  constructor
  · intro h
    induction cs generalizing a with
    | nil => exact nomatch h
    | cons d cs ih =>
      unfold rsplitOnce at h
      cases hrest : rsplitOnce c cs with
      | some x =>
        obtain ⟨a', b'⟩ := x
        rw [hrest] at h
        obtain ⟨rfl, rfl⟩ := Prod.mk.inj (Option.some.inj h)
        obtain ⟨rfl, hb⟩ := ih hrest
        exact ⟨rfl, hb⟩
      | none =>
        simp only [hrest] at h
        split_ifs at h with hd
        obtain ⟨rfl, rfl⟩ := Prod.mk.inj (Option.some.inj h)
        exact ⟨by rw [hd]; rfl, rsplitOnce_eq_none.mp hrest⟩
  · rintro ⟨rfl, hb⟩
    induction a with
    | nil =>
      rw [List.nil_append]
      unfold rsplitOnce
      simp only [rsplitOnce_eq_none.mpr hb, if_true]
    | cons d a ih =>
      rw [List.cons_append]
      unfold rsplitOnce
      simp only [ih]

/-! ### Integers -/

/-- The number that decimal digits write. -/
def parseDigits (cs : List Char) : Option ℕ :=
  if cs ≠ [] ∧ cs.all Char.isDigit then some (Nat.ofDigitChars 10 cs 0) else none

/-- What an `i64` can be. -/
def IsI64 (n : ℤ) : Prop := -9223372036854775808 ≤ n ∧ n ≤ 9223372036854775807

instance (n : ℤ) : Decidable (IsI64 n) := inferInstanceAs (Decidable (_ ∧ _))

def checkI64 (n : ℤ) : Option ℤ := if IsI64 n then some n else none

/-- `str::parse::<i64>`: digits, with a sign in front or not. -/
def parseI64 : List Char → Option ℤ
  | '+' :: cs => (parseDigits cs).bind fun n => checkI64 n
  | '-' :: cs => (parseDigits cs).bind fun n => checkI64 (-n)
  | cs => (parseDigits cs).bind fun n => checkI64 n

theorem parseDigits_toDigits (n : ℕ) : parseDigits (Nat.toDigits 10 n) = some n := by
  have hdigits : (Nat.toDigits 10 n).all Char.isDigit := List.all_eq_true.mpr fun c hc =>
    Nat.isDigit_of_mem_toDigits (by decide) (by decide) hc
  rw [parseDigits, if_pos ⟨Nat.toDigits_ne_nil, hdigits⟩, Nat.ofDigitChars_ten_toDigits]

/-- What an integer of 64 bits is written as is read as that integer. -/
theorem parseI64_toString {n : ℤ} (h : IsI64 n) :
    parseI64 (toString n).toList = some n := by
  cases n with
  | ofNat n =>
    have htext : (toString (Int.ofNat n)).toList = Nat.toDigits 10 n := by
      rw [show toString (Int.ofNat n) = n.repr from rfl, Nat.repr_eq_ofList_toDigits,
        String.toList_ofList]
    obtain ⟨c, cs, hcs⟩ := List.exists_cons_of_ne_nil (Nat.toDigits_ne_nil (n := n) (b := 10))
    have hc : c.isDigit := Nat.isDigit_of_mem_toDigits (b := 10) (n := n) (by decide) (by decide)
      (hcs ▸ List.mem_cons_self)
    have hsign : parseI64 (c :: cs) = (parseDigits (c :: cs)).bind fun n => checkI64 n := by
      unfold parseI64
      split
      · next heq =>
        obtain ⟨rfl, -⟩ := List.cons.inj heq
        exact absurd hc (by decide)
      · next heq =>
        obtain ⟨rfl, -⟩ := List.cons.inj heq
        exact absurd hc (by decide)
      · rfl
    rw [htext, hcs, hsign, ← hcs, parseDigits_toDigits, Option.bind_some,
      ← Int.ofNat_eq_natCast, checkI64, if_pos h]
  | negSucc n =>
    have htext : (toString (Int.negSucc n)).toList = '-' :: Nat.toDigits 10 (n + 1) := by
      rw [show toString (Int.negSucc n) = "-" ++ (n + 1).repr from rfl, Nat.repr_eq_ofList_toDigits,
        String.toList_append]
      exact congrArg (['-'] ++ ·) String.toList_ofList
    have hsign : parseI64 ('-' :: Nat.toDigits 10 (n + 1)) =
      (parseDigits (Nat.toDigits 10 (n + 1))).bind fun n => checkI64 (-n) := rfl
    rw [htext, hsign, parseDigits_toDigits, Option.bind_some]
    rw [Int.negSucc_eq, ← Nat.cast_succ] at h ⊢
    exact if_pos h

/-! ### Text from bytes -/

/-- The ranges of the bytes behind the first byte of a UTF-8 sequence, `none`
for a byte that starts none. -/
def followers (b : UInt8) : Option (List (UInt8 × UInt8)) :=
  if b < 0x80 then some []
  else if 0xC2 ≤ b ∧ b ≤ 0xDF then some [(0x80, 0xBF)]
  else if b = 0xE0 then some [(0xA0, 0xBF), (0x80, 0xBF)]
  else if b = 0xED then some [(0x80, 0x9F), (0x80, 0xBF)]
  else if 0xE1 ≤ b ∧ b ≤ 0xEF then some [(0x80, 0xBF), (0x80, 0xBF)]
  else if b = 0xF0 then some [(0x90, 0xBF), (0x80, 0xBF), (0x80, 0xBF)]
  else if 0xF1 ≤ b ∧ b ≤ 0xF3 then some [(0x80, 0xBF), (0x80, 0xBF), (0x80, 0xBF)]
  else if b = 0xF4 then some [(0x80, 0x8F), (0x80, 0xBF), (0x80, 0xBF)]
  else none

/-- How many of the bytes are in their ranges, and whether all the ranges are met. -/
def matchFollowers : List (UInt8 × UInt8) → List UInt8 → ℕ × Bool
  | [], _ => (0, true)
  | _ :: _, [] => (0, false)
  | (lo, hi) :: ranges, c :: bytes =>
    if lo ≤ c ∧ c ≤ hi then
      ((matchFollowers ranges bytes).1 + 1, (matchFollowers ranges bytes).2)
    else (0, false)

/-- The bytes of the replacement character. -/
def replacementBytes : List UInt8 := [0xEF, 0xBF, 0xBD]

def lossyFrom : ℕ → List UInt8 → List UInt8
  | 0, _ => []
  | _ + 1, [] => []
  | n + 1, b :: bytes =>
    match followers b with
    | none => replacementBytes ++ lossyFrom n bytes
    | some ranges =>
      let found := matchFollowers ranges bytes
      (if found.2 then b :: bytes.take found.1 else replacementBytes) ++
        lossyFrom n (bytes.drop found.1)

/-- `to_string_lossy` as bytes: what is no UTF-8 is replaced, a sequence that
breaks off as one. -/
def toStringLossy (bytes : List UInt8) : List UInt8 := lossyFrom bytes.length bytes

/-- The code point of a UTF-8 sequence, from its first byte and the others. -/
def codePoint (b : UInt8) (rest : List UInt8) : ℕ :=
  let first := if b < 0x80 then b.toNat else if b < 0xE0 then b.toNat % 32
    else if b < 0xF0 then b.toNat % 16 else b.toNat % 8
  rest.foldl (fun n c => n * 64 + c.toNat % 64) first

/-- The characters, `none` for what is no UTF-8. -/
def decodeFrom : ℕ → List UInt8 → List (Option Char)
  | 0, _ => []
  | _ + 1, [] => []
  | n + 1, b :: bytes =>
    match followers b with
    | none => none :: decodeFrom n bytes
    | some ranges =>
      let found := matchFollowers ranges bytes
      (if found.2 then some (Char.ofNat (codePoint b (bytes.take found.1))) else none) ::
        decodeFrom n (bytes.drop found.1)

/-- There are no more characters than bytes. -/
theorem length_decodeFrom_le : ∀ n (bytes : List UInt8), (decodeFrom n bytes).length ≤ bytes.length
  | 0, _ => Nat.zero_le _
  | _ + 1, [] => le_rfl
  | n + 1, b :: bytes => by
    unfold decodeFrom
    cases followers b with
    | none => exact Nat.succ_le_succ (length_decodeFrom_le n bytes)
    | some ranges =>
      have hle := length_decodeFrom_le n (bytes.drop (matchFollowers ranges bytes).1)
      rw [List.length_drop] at hle
      simp only [List.length_cons]
      omega

/-- `from_utf8_lossy` as characters. -/
def fromUtf8Lossy (bytes : List UInt8) : List Char :=
  (decodeFrom bytes.length bytes).map fun c => c.getD (Char.ofNat 0xFFFD)

/-- `from_utf8` succeeds. -/
def isUtf8 (bytes : List UInt8) : Bool := (decodeFrom bytes.length bytes).all Option.isSome

/-- ASCII text, in bytes. -/
def asciiBytes (cs : List Char) : List UInt8 := cs.map fun c => UInt8.ofNat c.toNat

/-- A character for each byte. -/
def byteChars (bytes : List UInt8) : List Char := bytes.map fun b => Char.ofNat b.toNat

section Ascii

variable {cs : List Char} {bytes : List UInt8}

theorem byteChars_asciiBytes (h : ∀ c ∈ cs, c.toNat < 128) : byteChars (asciiBytes cs) = cs := by
  unfold byteChars asciiBytes
  rw [List.map_map]
  refine (List.map_congr_left fun c hc => ?_).trans (List.map_id cs)
  have hlt : c.toNat < 2 ^ 8 := lt_trans (h c hc) (by decide)
  rw [Function.comp_apply, UInt8.toNat_ofNat_of_lt' hlt, Char.ofNat_toNat, id]

theorem isUtf8_of_ascii (h : ∀ b ∈ bytes, b < 0x80) : isUtf8 bytes := by
  unfold isUtf8
  induction bytes with
  | nil => rfl
  | cons b bytes ih =>
    obtain ⟨hb, hbytes⟩ := List.forall_mem_cons.mp h
    have hfollow : followers b = some [] := if_pos hb
    rw [List.length_cons, decodeFrom, hfollow]
    exact ih hbytes

end Ascii

/-! ### Numerals -/

/-- Numerals of the numbers below a bound, to a base. -/
structure Numerals (base bound : ℕ) where
  encode : ℕ → List Char
  decode : List Char → Option ℕ
  ascii : ∀ n, ∀ c ∈ encode n, c.utf8Size = 1
  length_le : ∀ n w, 0 < w → n < base ^ w → (encode n).length ≤ w
  decode_zeros : ∀ n < bound, ∀ k, decode (List.replicate k '0' ++ encode n) = some n
  of_decode : ∀ s n, decode s = some n → n < bound ∧ ∃ k, s = List.replicate k '0' ++ encode n

namespace Numerals

variable {base bound : ℕ} (N : Numerals base bound) {n w : ℕ} {s : List Char}

/-- The numeral, with zeros in front of it up to the width. -/
def padded (w n : ℕ) : List Char := List.replicate (w - (N.encode n).length) '0' ++ N.encode n

theorem ascii_padded : ∀ c ∈ N.padded w n, c.utf8Size = 1 := by
  intro c hc
  rcases List.mem_append.mp hc with hc | hc
  · rw [List.eq_of_mem_replicate hc]
    rfl
  · exact N.ascii n c hc

theorem length_padded (hw : 0 < w) (hn : n < base ^ w) : (N.padded w n).length = w := by
  have hle := N.length_le n w hw hn
  simp only [padded, List.length_append, List.length_replicate]
  omega

theorem utf8Len_padded (hw : 0 < w) (hn : n < base ^ w) : utf8Len (N.padded w n) = w :=
  (utf8Len_of_ascii N.ascii_padded).trans (N.length_padded hw hn)

theorem decode_padded (hn : n < bound) : N.decode (N.padded w n) = some n :=
  N.decode_zeros n hn _

/-- **Numerals of one width.** -/
theorem eq_padded (h : N.decode s = some n) : s = N.padded (utf8Len s) n := by
  obtain ⟨-, k, rfl⟩ := N.of_decode s n h
  have hascii : ∀ c ∈ List.replicate k '0' ++ N.encode n, c.utf8Size = 1 := by
    intro c hc
    rcases List.mem_append.mp hc with hc | hc
    · rw [List.eq_of_mem_replicate hc]
      rfl
    · exact N.ascii n c hc
  rw [utf8Len_of_ascii hascii, List.length_append, List.length_replicate, padded,
    Nat.add_sub_cancel]

end Numerals

/-! ### Base 62 -/

/-- The digits `0` to `9`, `A` to `Z` and `a` to `z`. -/
def digitChar (n : ℕ) : Char :=
  if n < 10 then Char.ofNat (n + 48)
  else if n < 36 then Char.ofNat (n - 10 + 65)
  else Char.ofNat (n - 36 + 97)

def charDigit (c : Char) : Option ℕ :=
  if '0' ≤ c ∧ c ≤ '9' then some (c.toNat - 48)
  else if 'A' ≤ c ∧ c ≤ 'Z' then some (c.toNat - 65 + 10)
  else if 'a' ≤ c ∧ c ≤ 'z' then some (c.toNat - 97 + 36)
  else none

theorem charDigit_digitChar : ∀ n < 62, charDigit (digitChar n) = some n := by decide

theorem utf8Size_digitChar : ∀ n < 62, (digitChar n).utf8Size = 1 := by decide

theorem charDigit_eq_some {c : Char} {n : ℕ} (h : charDigit c = some n) : n < 62 ∧ c = digitChar n := by
  have hle : ∀ {a b : Char}, a ≤ b → a.toNat ≤ b.toNat := fun h => h
  unfold charDigit at h
  split_ifs at h with hdigit hupper hlower
  · obtain rfl := Option.some.inj h
    have hlo : 48 ≤ c.toNat := hle hdigit.1
    have hhi : c.toNat ≤ 57 := hle hdigit.2
    refine ⟨by omega, ?_⟩
    rw [digitChar, if_pos (by omega), Nat.sub_add_cancel hlo, Char.ofNat_toNat]
  · obtain rfl := Option.some.inj h
    have hlo : 65 ≤ c.toNat := hle hupper.1
    have hhi : c.toNat ≤ 90 := hle hupper.2
    refine ⟨by omega, ?_⟩
    rw [digitChar, if_neg (by omega), if_pos (by omega), Nat.add_sub_cancel,
      Nat.sub_add_cancel hlo, Char.ofNat_toNat]
  · obtain rfl := Option.some.inj h
    have hlo : 97 ≤ c.toNat := hle hlower.1
    have hhi : c.toNat ≤ 122 := hle hlower.2
    refine ⟨by omega, ?_⟩
    rw [digitChar, if_neg (by omega), if_neg (by omega), Nat.add_sub_cancel,
      Nat.sub_add_cancel hlo, Char.ofNat_toNat]

/-- The most significant digit first; zero has one. -/
def encode62 (n : ℕ) : List Char :=
  if n = 0 then ['0'] else (Nat.digits 62 n).reverse.map digitChar

/-- Refused are the empty string, what is no digit, and a number beyond the bound. -/
def decode62 (bound : ℕ) (s : List Char) : Option ℕ :=
  if s = [] then none
  else (s.mapM charDigit).bind fun digits =>
    if Nat.ofDigits 62 digits.reverse < bound then some (Nat.ofDigits 62 digits.reverse) else none

section Base62

variable {bound n : ℕ} {s : List Char} {digits : List ℕ}

theorem mapM_charDigit (h : ∀ d ∈ digits, d < 62) :
    (digits.map digitChar).mapM charDigit = some digits := by
  induction digits with
  | nil => rfl
  | cons d digits ih =>
    rw [List.map_cons, List.mapM_cons, charDigit_digitChar d (h d List.mem_cons_self),
      ih fun e he => h e (List.mem_cons_of_mem d he)]
    rfl

theorem of_mapM_charDigit (h : s.mapM charDigit = some digits) :
    (∀ d ∈ digits, d < 62) ∧ s = digits.map digitChar := by
  induction s generalizing digits with
  | nil =>
    obtain rfl : digits = [] := (Option.some.inj h).symm
    exact ⟨nofun, rfl⟩
  | cons c s ih =>
    rw [List.mapM_cons] at h
    obtain ⟨d, hd, h⟩ := Option.bind_eq_some_iff.mp h
    obtain ⟨rest, hrest, h⟩ := Option.bind_eq_some_iff.mp h
    obtain rfl : d :: rest = digits := Option.some.inj h
    obtain ⟨hlt, rfl⟩ := charDigit_eq_some hd
    obtain ⟨hall, rfl⟩ := ih hrest
    exact ⟨List.forall_mem_cons.mpr ⟨hlt, hall⟩, rfl⟩

/-- The least significant digit first, digits are those of their number and then zeros. -/
theorem eq_digits_append (h : ∀ d ∈ digits, d < 62) :
    ∃ k, digits = Nat.digits 62 (Nat.ofDigits 62 digits) ++ List.replicate k 0 := by
  induction digits with
  | nil => exact ⟨0, by simp⟩
  | cons d digits ih =>
    obtain ⟨hd, hall⟩ := List.forall_mem_cons.mp h
    obtain ⟨k, hk⟩ := ih hall
    rw [Nat.ofDigits_cons]
    by_cases hzero : d ≠ 0 ∨ Nat.ofDigits 62 digits ≠ 0
    · refine ⟨k, ?_⟩
      rw [Nat.digits_add 62 (by decide) d _ hd hzero, List.cons_append, ← hk]
    · obtain ⟨rfl, hrest⟩ := not_or.mp hzero |>.imp not_not.mp not_not.mp
      rw [hrest, Nat.digits_zero, List.nil_append] at hk
      exact ⟨k + 1, by rw [hrest, hk]; simp [List.replicate_succ]⟩

/-- Of zero a digit is written. -/
theorem encode62_eq : encode62 n =
    List.replicate (if n = 0 then 1 else 0) '0' ++ (Nat.digits 62 n).reverse.map digitChar := by
  unfold encode62
  split_ifs with h
  · subst h
    simp
  · simp

theorem decode62_zeros (hn : n < bound) (k : ℕ) :
    decode62 bound (List.replicate k '0' ++ encode62 n) = some n := by
  obtain ⟨m, hm⟩ : ∃ m, List.replicate k '0' ++ encode62 n =
      (List.replicate m 0 ++ (Nat.digits 62 n).reverse).map digitChar := by
    refine ⟨k + if n = 0 then 1 else 0, ?_⟩
    rw [encode62_eq, ← List.append_assoc, List.replicate_append_replicate, List.map_append,
      List.map_replicate]
    rfl
  have hlt : ∀ d ∈ List.replicate m 0 ++ (Nat.digits 62 n).reverse, d < 62 := by
    intro d hd
    rcases List.mem_append.mp hd with hd | hd
    · rw [List.eq_of_mem_replicate hd]
      decide
    · exact Nat.digits_lt_base (by decide) (List.mem_reverse.mp hd)
  have hne : List.replicate k '0' ++ encode62 n ≠ [] := by
    intro h
    have henc := (List.append_eq_nil_iff.mp h).2
    unfold encode62 at henc
    split_ifs at henc with h0
    exact h0 (Nat.digits_eq_nil_iff_eq_zero.mp
      (List.reverse_eq_nil_iff.mp (List.map_eq_nil_iff.mp henc)))
  have hvalue : Nat.ofDigits 62 (List.replicate m 0 ++ (Nat.digits 62 n).reverse).reverse = n := by
    rw [List.reverse_append, List.reverse_reverse, List.reverse_replicate, Nat.ofDigits_append,
      Nat.ofDigits_digits, Nat.ofDigits_replicate_zero, Nat.mul_zero, Nat.add_zero]
  rw [decode62, if_neg hne, hm, mapM_charDigit hlt, Option.bind_some, hvalue, if_pos hn]

theorem of_decode62 (h : decode62 bound s = some n) :
    n < bound ∧ ∃ k, s = List.replicate k '0' ++ encode62 n := by
  unfold decode62 at h
  split_ifs at h with hne
  obtain ⟨digits, hdigits, h⟩ := Option.bind_eq_some_iff.mp h
  split_ifs at h with hlt
  obtain rfl := Option.some.inj h
  refine ⟨hlt, ?_⟩
  obtain ⟨hall, rfl⟩ := of_mapM_charDigit hdigits
  have hdigit : ∀ d ∈ digits.reverse, d < 62 := fun d hd => hall d (List.mem_reverse.mp hd)
  obtain ⟨k, hk⟩ := eq_digits_append hdigit
  have hform : digits = List.replicate k 0 ++
      (Nat.digits 62 (Nat.ofDigits 62 digits.reverse)).reverse := by
    rw [← List.reverse_replicate, ← List.reverse_append, ← hk, List.reverse_reverse]
  generalize Nat.ofDigits 62 digits.reverse = n at hform
  subst hform
  rw [encode62_eq]
  split_ifs with hzero
  · subst hzero
    obtain ⟨k, rfl⟩ : ∃ j, k = j + 1 := by
      refine Nat.exists_eq_succ_of_ne_zero fun h0 => hne ?_
      subst h0
      simp
    refine ⟨k, ?_⟩
    simp only [Nat.digits_zero, List.reverse_nil, List.append_nil, List.map_replicate,
      List.map_nil]
    exact List.replicate_succ'
  · refine ⟨k, ?_⟩
    simp only [List.map_append, List.map_replicate, List.replicate_zero, List.nil_append]
    rfl

theorem length_encode62_le {w : ℕ} (hw : 0 < w) (hn : n < 62 ^ w) : (encode62 n).length ≤ w := by
  unfold encode62
  split_ifs with h
  · exact hw
  · rw [List.length_map, List.length_reverse, Nat.digits_length_le_iff (by decide)]
    exact hn

theorem utf8Size_encode62 : ∀ c ∈ encode62 n, c.utf8Size = 1 := by
  intro c hc
  unfold encode62 at hc
  split_ifs at hc with h
  · rw [List.mem_singleton.mp hc]
    rfl
  · obtain ⟨d, hd, rfl⟩ := List.mem_map.mp hc
    exact utf8Size_digitChar d (Nat.digits_lt_base (by decide) (List.mem_reverse.mp hd))

end Base62

/-- **Positional notation.** -/
def base62 (bound : ℕ) : Numerals 62 bound where
  encode := encode62
  decode := decode62 bound
  ascii _ := utf8Size_encode62
  length_le _ _ := length_encode62_le
  decode_zeros _ hn k := decode62_zeros hn k
  of_decode _ _ := of_decode62

/-! ### Big-endian bytes -/

/-- The number that the bytes write, the most significant first. -/
def ofBeBytes (bytes : List UInt8) : ℕ :=
  bytes.foldl (fun n b => 256 * n + b.toNat) 0

/-- So many bytes of the number. -/
def toBeBytes : ℕ → ℕ → List UInt8
  | 0, _ => []
  | w + 1, n => toBeBytes w (n / 256) ++ [UInt8.ofNat n]

section Bytes

variable {w n : ℕ} {bytes : List UInt8}

theorem ofBeBytes_append_singleton (b : UInt8) :
    ofBeBytes (bytes ++ [b]) = 256 * ofBeBytes bytes + b.toNat := by
  simp [ofBeBytes]

@[simp]
theorem length_toBeBytes : (toBeBytes w n).length = w := by
  induction w generalizing n with
  | zero => rfl
  | succ w ih => simp [toBeBytes, ih]

theorem ofBeBytes_toBeBytes (hn : n < 256 ^ w) : ofBeBytes (toBeBytes w n) = n := by
  induction w generalizing n with
  | zero =>
    rw [pow_zero] at hn
    exact (Nat.lt_one_iff.mp hn).symm
  | succ w ih =>
    have hdiv : n / 256 < 256 ^ w := Nat.div_lt_of_lt_mul (by rwa [pow_succ'] at hn)
    rw [toBeBytes, ofBeBytes_append_singleton, ih hdiv, UInt8.toNat_ofNat']
    exact Nat.div_add_mod n 256

theorem ofBeBytes_lt : ofBeBytes bytes < 256 ^ bytes.length := by
  induction bytes using List.reverseRecOn with
  | nil => decide
  | append_singleton bytes b ih =>
    have hb := b.toNat_lt
    rw [ofBeBytes_append_singleton, List.length_append, List.length_singleton, pow_succ]
    omega

theorem toBeBytes_ofBeBytes : toBeBytes bytes.length (ofBeBytes bytes) = bytes := by
  induction bytes using List.reverseRecOn with
  | nil => rfl
  | append_singleton bytes b ih =>
    have hb : b.toNat < 256 := b.toNat_lt
    have hdiv : (256 * ofBeBytes bytes + b.toNat) / 256 = ofBeBytes bytes := by omega
    have hmod : UInt8.ofNat (256 * ofBeBytes bytes + b.toNat) = b := by
      refine UInt8.toNat_inj.mp ?_
      rw [UInt8.toNat_ofNat']
      omega
    rw [ofBeBytes_append_singleton, List.length_append, List.length_singleton, toBeBytes, hdiv,
      hmod, ih]

end Bytes

/-! ### Texts of a bounded length -/

/-- A value of a column `VARCHAR(n)`. -/
structure Varchar (n : ℕ) where
  text : String
  length_le : text.toList.length ≤ n
  deriving DecidableEq

theorem length_take_le (n : ℕ) (s : String) :
    (String.ofList (s.toList.take n)).toList.length ≤ n := by
  rw [String.toList_ofList, List.length_take]
  exact Nat.min_le_left _ _

/-- What a text is stored as: what is past the length is left out if it is all
spaces, and otherwise the text is refused. -/
def Varchar.assign (n : ℕ) (s : String) : Option (Varchar n) :=
  if (s.toList.drop n).all (· == ' ') then some ⟨_, length_take_le n s⟩ else none

end Text
end Lib
