/-
# The format of an access token

A token is the prefix of its type, two numerals of 22 characters for the two
halves of its 32 random bytes, and one of 6 characters for their checksum.
`validate_token_format` reads this back. It compares the length of the rest
with 50, and cuts it behind 44 and 22; length and cuts count bytes. So it
accepts what is generated and nothing else (`validateTokenFormat_eq_true_iff`),
but where a character lies across one of the cuts `split_at` panics
(`validateTokenFormat_isSome`).

Key definitions: `generateAccessToken`, `validateTokenFormat`.
Key theorems: `validateRest_eq_true_iff`, `validateRest_isSome`,
`validateTokenFormat_exact`.
-/
import Gitdot.Auth.Bearer
import Gitdot.Lib.Text

namespace Gitdot

open Lib Lib.Text

namespace Auth

/-- `TokenType::prefix`. -/
def TokenType.tokenPrefix : TokenType → String
  | .personal => "gdp_"
  | .runner => "gdr_"

def bodyHalfLen : ℕ := 22
def bodyLen : ℕ := bodyHalfLen * 2
def checksumLen : ℕ := 6

/-! ### The token client -/

section TokenClient

/- The base62 codec, `crc32fast::hash` and `hash_string`. -/
variable (codec : Numerals 62 (2 ^ 128)) (crc32 : List UInt8 → UInt32) (hashString : String → String)

/-- `base62_encode_padded`. -/
def base62EncodePadded (value width : ℕ) : List Char := codec.padded width value

/-- The body of the token and its checksum. -/
def bodyAndChecksum (bytes : Vector UInt8 32) : List Char :=
  let hi := ofBeBytes (bytes.toList.take 16)
  let lo := ofBeBytes (bytes.toList.drop 16)
  let body := base62EncodePadded codec hi bodyHalfLen ++ base62EncodePadded codec lo bodyHalfLen
  let crc := crc32 bytes.toList
  let checksum := base62EncodePadded codec crc.toNat checksumLen
  body ++ checksum

/-- `generate_access_token`, from the random bytes: the raw token and its hash. -/
def generateAccessToken (tokenType : TokenType) (bytes : Vector UInt8 32) : String × String :=
  let rawToken := tokenType.tokenPrefix ++ String.ofList (bodyAndChecksum codec crc32 bytes)
  (rawToken, hashString rawToken)

/-- `validate_token_format` on what follows the prefix; `none` is a panic. -/
def validateRest (rest : List Char) : Option Bool :=
  if String.utf8Len rest ≠ bodyLen + checksumLen then some false
  else do
    let (body, checksumStr) ← splitAt bodyLen rest
    let (hiStr, loStr) ← splitAt bodyHalfLen body
    match codec.decode hiStr, codec.decode loStr, codec.decode checksumStr with
    | some hi, some lo, some crcVal =>
      let bodyBytes := toBeBytes 16 hi ++ toBeBytes 16 lo
      let expectedCrc := crc32 bodyBytes
      some (expectedCrc.toNat == crcVal)
    | _, _, _ => some false

/-- `validate_token_format`; `none` is a panic. -/
def validateTokenFormat (token : String) : Option Bool :=
  match [TokenType.personal, .runner].findSome? fun t => stripPrefix t.tokenPrefix token with
  | none => some false
  | some rest => validateRest codec crc32 rest.toList

/-! ### What is accepted -/

variable {codec crc32} {rest : List Char} {s : String}

theorem utf8Len_hi {n : ℕ} (hn : n < 2 ^ 128) :
    String.utf8Len (base62EncodePadded codec n bodyHalfLen) = bodyHalfLen :=
  codec.utf8Len_padded (by decide) (hn.trans (by decide))

theorem utf8Len_crc (crc : UInt32) :
    String.utf8Len (base62EncodePadded codec crc.toNat checksumLen) = checksumLen :=
  codec.utf8Len_padded (by decide) (crc.toNat_lt.trans (by decide))

/-- Sixteen bytes are a number of 128 bits. -/
theorem ofBeBytes_half {half : List UInt8} (h : half.length = 16) : ofBeBytes half < 2 ^ 128 := by
  have hlt : ofBeBytes half < 256 ^ half.length := ofBeBytes_lt
  rw [h] at hlt
  exact hlt.trans_eq (by norm_num)

/-- What the two cuts make of the rest of a token. -/
theorem validateRest_parts {hiStr loStr checksumStr : List Char}
    (hhi : String.utf8Len hiStr = bodyHalfLen) (hlo : String.utf8Len loStr = bodyHalfLen)
    (hcheck : String.utf8Len checksumStr = checksumLen) :
    validateRest codec crc32 (hiStr ++ loStr ++ checksumStr) =
      match codec.decode hiStr, codec.decode loStr, codec.decode checksumStr with
      | some hi, some lo, some crcVal =>
        some ((crc32 (toBeBytes 16 hi ++ toBeBytes 16 lo)).toNat == crcVal)
      | _, _, _ => some false := by
  have hbody : String.utf8Len (hiStr ++ loStr) = bodyLen := by
    rw [String.utf8Len_append, hhi, hlo]
    rfl
  have hlen : String.utf8Len (hiStr ++ loStr ++ checksumStr) = bodyLen + checksumLen := by
    rw [String.utf8Len_append, hbody, hcheck]
  have hfirst : splitAt bodyLen (hiStr ++ loStr ++ checksumStr) = some (hiStr ++ loStr, checksumStr) :=
    splitAt_eq_some.mpr ⟨rfl, hbody⟩
  have hsecond : splitAt bodyHalfLen (hiStr ++ loStr) = some (hiStr, loStr) :=
    splitAt_eq_some.mpr ⟨rfl, hhi⟩
  rw [validateRest, if_neg (not_not.mpr hlen), hfirst]
  simp only [Option.bind_eq_bind, Option.bind_some, hsecond]

/-- The parts that the two cuts make. -/
theorem exists_parts (hlen : String.utf8Len rest = bodyLen + checksumLen)
    (hcuts : IsCharBoundary rest bodyLen ∧ IsCharBoundary rest bodyHalfLen) :
    ∃ hiStr loStr checksumStr, rest = hiStr ++ loStr ++ checksumStr ∧
      String.utf8Len hiStr = bodyHalfLen ∧ String.utf8Len loStr = bodyHalfLen ∧
      String.utf8Len checksumStr = checksumLen := by
  obtain ⟨⟨body, checksumStr, rfl, hbody⟩, hhalf⟩ := hcuts
  obtain ⟨hiStr, loStr, rfl, hhi⟩ := (isCharBoundary_append (by rw [hbody]; decide)).mp hhalf
  rw [String.utf8Len_append, hbody] at hlen
  rw [String.utf8Len_append, hhi] at hbody
  exact ⟨hiStr, loStr, checksumStr, rfl, hhi, Nat.add_left_cancel (hbody.trans (Nat.mul_two _)),
    Nat.add_left_cancel hlen⟩

/-- It does not panic where both cuts are between characters. -/
theorem validateRest_isSome : (validateRest codec crc32 rest).isSome ↔
    (String.utf8Len rest = bodyLen + checksumLen →
      IsCharBoundary rest bodyLen ∧ IsCharBoundary rest bodyHalfLen) := by
  by_cases hlen : String.utf8Len rest = bodyLen + checksumLen
  swap
  · rw [validateRest, if_pos hlen]
    simp [hlen]
  · rw [validateRest, if_neg (not_not.mpr hlen)]
    cases hsplit : splitAt bodyLen rest with
    | none =>
      have hno : ¬ IsCharBoundary rest bodyLen := by
        rw [← isSome_splitAt, hsplit]
        simp
      simp [hlen, hno]
    | some x =>
      obtain ⟨body, checksumStr⟩ := x
      obtain ⟨rfl, hbody⟩ := splitAt_eq_some.mp hsplit
      have hcut : IsCharBoundary (body ++ checksumStr) bodyLen := ⟨body, checksumStr, rfl, hbody⟩
      have hhalf : (splitAt bodyHalfLen body).isSome ↔
          IsCharBoundary (body ++ checksumStr) bodyHalfLen := by
        rw [isSome_splitAt, isCharBoundary_append (by rw [hbody]; decide)]
      simp only [hlen, hcut, ← hhalf, true_and, forall_const, Option.bind_eq_bind, Option.bind_some]
      cases splitAt bodyHalfLen body with
      | none => simp
      | some y =>
        simp only [Option.bind_some, Option.isSome_some, iff_true]
        split <;> rfl

/-- **What is accepted.** The body and the checksum of some bytes. -/
theorem validateRest_eq_true_iff : validateRest codec crc32 rest = some true ↔
    ∃ bytes, rest = bodyAndChecksum codec crc32 bytes := by
  constructor
  · intro h
    have hlen : String.utf8Len rest = bodyLen + checksumLen := by
      by_contra hlen
      rw [validateRest, if_pos hlen] at h
      exact nomatch h
    obtain ⟨hiStr, loStr, checksumStr, rfl, hhi, hlo, hcheck⟩ :=
      exists_parts hlen (validateRest_isSome.mp (Option.isSome_of_eq_some h) hlen)
    rw [validateRest_parts hhi hlo hcheck] at h
    split at h
    case h_2 => exact nomatch h
    rename_i hi lo crcVal hdhi hdlo hdcheck
    have hcrc : (crc32 (toBeBytes 16 hi ++ toBeBytes 16 lo)).toNat = crcVal :=
      beq_iff_eq.mp (Option.some.inj h)
    have hhi16 : hi < 256 ^ 16 := (codec.of_decode _ _ hdhi).1.trans_eq (by norm_num)
    have hlo16 : lo < 256 ^ 16 := (codec.of_decode _ _ hdlo).1.trans_eq (by norm_num)
    refine ⟨⟨(toBeBytes 16 hi ++ toBeBytes 16 lo).toArray, by simp⟩, ?_⟩
    have hbytes : (⟨(toBeBytes 16 hi ++ toBeBytes 16 lo).toArray, by simp⟩ : Vector UInt8 32).toList =
        toBeBytes 16 hi ++ toBeBytes 16 lo := rfl
    simp only [bodyAndChecksum, hbytes, List.take_left' length_toBeBytes,
      List.drop_left' length_toBeBytes, ofBeBytes_toBeBytes hhi16, ofBeBytes_toBeBytes hlo16, hcrc,
      base62EncodePadded]
    rw [← hhi, ← codec.eq_padded hdhi, hhi, ← hlo, ← codec.eq_padded hdlo, ← hcheck,
      ← codec.eq_padded hdcheck]
  · rintro ⟨bytes, rfl⟩
    have htake : (bytes.toList.take 16).length = 16 := by simp
    have hdrop : (bytes.toList.drop 16).length = 16 := by simp
    have hhi := ofBeBytes_half htake
    have hlo := ofBeBytes_half hdrop
    have hback : toBeBytes 16 (ofBeBytes (bytes.toList.take 16)) ++
        toBeBytes 16 (ofBeBytes (bytes.toList.drop 16)) = bytes.toList := by
      have h1 : toBeBytes (bytes.toList.take 16).length (ofBeBytes (bytes.toList.take 16)) =
          bytes.toList.take 16 := toBeBytes_ofBeBytes
      have h2 : toBeBytes (bytes.toList.drop 16).length (ofBeBytes (bytes.toList.drop 16)) =
          bytes.toList.drop 16 := toBeBytes_ofBeBytes
      rw [htake] at h1
      rw [hdrop] at h2
      rw [h1, h2, List.take_append_drop]
    have hcrc : (crc32 bytes.toList).toNat < 2 ^ 128 :=
      (crc32 bytes.toList).toNat_lt.trans (by decide)
    simp only [bodyAndChecksum]
    rw [validateRest_parts (utf8Len_hi hhi) (utf8Len_hi hlo) (utf8Len_crc _)]
    simp only [base62EncodePadded, codec.decode_padded hhi, codec.decode_padded hlo,
      codec.decode_padded hcrc, hback, beq_self_eq_true]

/-- A token has one prefix. -/
theorem findSome_stripPrefix {rest : String} :
    ([TokenType.personal, .runner].findSome? fun t => stripPrefix t.tokenPrefix s) = some rest ↔
      ∃ t : TokenType, stripPrefix t.tokenPrefix s = some rest := by
  simp only [List.findSome?_cons, List.findSome?_nil]
  cases hp : stripPrefix TokenType.personal.tokenPrefix s with
  | some r =>
    refine ⟨fun h => ⟨.personal, hp.trans h⟩, ?_⟩
    rintro ⟨t, ht⟩
    cases t with
    | personal => exact hp.symm.trans ht
    | runner =>
      obtain rfl := stripPrefix_eq_some.mp hp
      have heq := congrArg String.toList (stripPrefix_eq_some.mp ht)
      rw [String.toList_append, String.toList_append] at heq
      cases heq
  | none =>
    cases hr : stripPrefix TokenType.runner.tokenPrefix s with
    | some r =>
      refine ⟨fun h => ⟨.runner, hr.trans h⟩, ?_⟩
      rintro ⟨t, ht⟩
      cases t with
      | personal => exact nomatch hp.symm.trans ht
      | runner => exact hr.symm.trans ht
    | none =>
      refine ⟨nofun, ?_⟩
      rintro ⟨t, ht⟩
      cases t with
      | personal => exact nomatch hp.symm.trans ht
      | runner => exact nomatch hr.symm.trans ht

theorem validateTokenFormat_of_rest {t : TokenType} {rest : String} :
    validateTokenFormat codec crc32 (t.tokenPrefix ++ rest) = validateRest codec crc32 rest.toList := by
  have hfind := findSome_stripPrefix.mpr ⟨t, stripPrefix_eq_some.mpr (rfl : t.tokenPrefix ++ rest = _)⟩
  rw [validateTokenFormat, hfind]

theorem validateTokenFormat_of_none (h : ∀ (t : TokenType) rest, s ≠ t.tokenPrefix ++ rest) :
    validateTokenFormat codec crc32 s = some false := by
  unfold validateTokenFormat
  split
  · rfl
  · rename_i rest hrest
    obtain ⟨t, ht⟩ := findSome_stripPrefix.mp hrest
    exact absurd (stripPrefix_eq_some.mp ht) (h t rest)

/-- It does not panic where the cuts of the rest are between characters. -/
theorem validateTokenFormat_isSome : (validateTokenFormat codec crc32 s).isSome ↔
    ∀ (t : TokenType) rest, s = t.tokenPrefix ++ rest →
      String.utf8Len rest.toList = bodyLen + checksumLen →
        IsCharBoundary rest.toList bodyLen ∧ IsCharBoundary rest.toList bodyHalfLen := by
  constructor
  · rintro h t rest rfl
    rw [validateTokenFormat_of_rest] at h
    exact validateRest_isSome.mp h
  · intro h
    by_cases hprefix : ∃ (t : TokenType) (rest : String), s = t.tokenPrefix ++ rest
    · obtain ⟨t, rest, rfl⟩ := hprefix
      rw [validateTokenFormat_of_rest]
      exact validateRest_isSome.mpr (h t rest rfl)
    · rw [validateTokenFormat_of_none fun t rest heq => hprefix ⟨t, rest, heq⟩]
      rfl

/-- What is accepted is a token that is generated, and the other way around. -/
theorem validateTokenFormat_eq_true_iff : validateTokenFormat codec crc32 s = some true ↔
    ∃ tokenType bytes, s = (generateAccessToken codec crc32 hashString tokenType bytes).1 := by
  constructor
  · intro h
    have hprefix : ∃ (t : TokenType) (rest : String), s = t.tokenPrefix ++ rest := by
      by_contra hno
      rw [validateTokenFormat_of_none fun t rest heq => hno ⟨t, rest, heq⟩] at h
      exact nomatch h
    obtain ⟨t, rest, rfl⟩ := hprefix
    rw [validateTokenFormat_of_rest] at h
    obtain ⟨bytes, hrest⟩ := validateRest_eq_true_iff.mp h
    refine ⟨t, bytes, ?_⟩
    rw [generateAccessToken, ← hrest, String.ofList_toList]
  · rintro ⟨t, bytes, rfl⟩
    rw [generateAccessToken, validateTokenFormat_of_rest]
    exact validateRest_eq_true_iff.mpr ⟨bytes, String.toList_ofList⟩

/-- **The format.** An answer that is right is given where a rest of 50 bytes
has a character in front of each cut. -/
theorem validateTokenFormat_exact (s : String) :
    (∃ b, validateTokenFormat codec crc32 s = some b ∧ (b = true ↔
      ∃ tokenType bytes, s = (generateAccessToken codec crc32 hashString tokenType bytes).1)) ↔
    ∀ (tokenType : TokenType) rest, s = tokenType.tokenPrefix ++ rest →
      String.utf8Len rest.toList = bodyLen + checksumLen →
        IsCharBoundary rest.toList bodyLen ∧ IsCharBoundary rest.toList bodyHalfLen := by
  have hsome : (validateTokenFormat codec crc32 s).isSome ↔ _ := validateTokenFormat_isSome
  rw [← hsome, Option.isSome_iff_exists]
  refine exists_congr fun b => and_iff_left_of_imp fun h => ?_
  rw [← validateTokenFormat_eq_true_iff hashString, h, Option.some.injEq]

/-- A character of two bytes lies across the cut behind 44. -/
theorem validateTokenFormat_panics : validateTokenFormat (base62 (2 ^ 128)) (fun _ => 0)
    "gdp_0000000000000000000000000000000000000000000é00000" = none := by
  decide +kernel

end TokenClient

end Auth
end Gitdot
