/-
# Requests of the Slack bot

The bot and the server sign their requests to one another with a shared secret:
the MAC of `v0:<timestamp>:<body>`, in hexadecimal. A request is accepted within
ten seconds of its timestamp.

The header is the text of an `i64` and has no colon in it, so the signed text
says what the timestamp was and what the body (`signedText_inj`). The age of
the request, `(now - ts).abs()`, overflows for timestamps from `now - 2^63`
down: a debug build panics there, and in a release build the difference of
exactly `2^63` seconds wraps to a number that is less than ten
(`verifyRequestSignature_wraps`). Everywhere else the check is exact
(`requestCheck_exact_iff`).

Key definitions: `Build.i64`, `sign`, `checkSignature`,
`verifyRequestSignature`, `ExactCheck`.
Key theorems: `signedText_inj`, `checkSignature_eq_ok`,
`verifyRequestSignature_eq`, `requestCheck_exact_iff`.
-/
import Gitdot.Lib.Framing
import Gitdot.Lib.Hex
import Gitdot.Lib.Text

namespace Gitdot
namespace SlackBot

open Lib Text

/-! ### Arithmetic -/

/-- Whether a build checks for overflow. -/
inductive Build where
  | debug
  | release
  deriving DecidableEq

/-- What an operation on `i64` makes of its result: overflow panics (`none`) or
wraps. -/
def Build.i64 (build : Build) (n : ℤ) : Option ℤ :=
  if IsI64 n then some n
  else match build with
    | .debug => none
    | .release => some (n.bmod (2 ^ 64))

/-- The seconds that `Utc::now().timestamp()` counts. -/
abbrev Timestamp := {n : ℤ // IsI64 n}

def maxRequestAgeInSeconds : ℤ := 10

/-! ### Signatures -/

inductive SlackBotError where
  | invalidSignature (reason : String)
  deriving DecidableEq

/-- The bytes of a text, in UTF-8. -/
def asBytes (s : List Char) : List UInt8 := s.flatMap String.utf8EncodeChar

/-- What `mac` is updated with. -/
def signedText (timestamp : List Char) (body : List UInt8) : List UInt8 :=
  asBytes "v0:".toList ++ (asBytes timestamp ++ (asBytes ":".toList ++ body))

section

-- `Hmac<Sha256>` of a key and a message, and the secret
variable (hmac : List UInt8 → List UInt8 → List UInt8) (slackSecret : List Char)

def mac (timestamp : List Char) (body : List UInt8) : List UInt8 :=
  hmac (asBytes slackSecret) (signedText timestamp body)

def sign (timestamp : ℤ) (body : List UInt8) : List Char :=
  "v0=".toList ++ Hex.encode (mac hmac slackSecret (toString timestamp).toList body)

/-- The second half of `verify_request_signature`, behind the check of the age. -/
def checkSignature (timestamp : List Char) (body : List UInt8) (signature : List Char) :
    Except SlackBotError Unit :=
  match "v0=".toList.isPrefixOf? signature with
  | none => .error (.invalidSignature "malformed signature")
  | some sigHex =>
    match Hex.decode sigHex with
    | none => .error (.invalidSignature "invalid signature encoding")
    | some sigBytes =>
      if mac hmac slackSecret timestamp body = sigBytes then .ok ()
      else .error (.invalidSignature "signature mismatch")

/-- `verify_request_signature` at the time `now`, `none` where it panics. -/
def verifyRequestSignature (build : Build) (now : Timestamp) (timestamp : List Char)
    (body : List UInt8) (signature : List Char) : Option (Except SlackBotError Unit) :=
  match parseI64 timestamp with
  | none => some (.error (.invalidSignature "malformed timestamp"))
  | some ts =>
    (build.i64 (now - ts)).bind fun difference =>
      (build.i64 |difference|).map fun age =>
        if age > maxRequestAgeInSeconds then .error (.invalidSignature "stale request")
        else checkSignature hmac slackSecret timestamp body signature

end

/-! ### The signed text -/

/-- A character of one byte. -/
theorem utf8EncodeChar_of_ascii {c : Char} (h : c.toNat < 128) :
    String.utf8EncodeChar c = [UInt8.ofNat c.toNat] :=
  if_pos (Nat.le_of_lt_succ h)

theorem asBytes_of_ascii {cs : List Char} (h : ∀ c ∈ cs, c.toNat < 128) :
    asBytes cs = cs.map fun c => UInt8.ofNat c.toNat := by
  induction cs with
  | nil => rfl
  | cons c cs ih =>
    rw [asBytes, List.flatMap_cons, utf8EncodeChar_of_ascii (h c List.mem_cons_self), List.map_cons]
    exact congrArg _ (ih fun d hd => h d (List.mem_cons_of_mem c hd))

/-- A character that the text of an integer may have. -/
def IsNumeral (c : Char) : Prop := c.isDigit ∨ c = '+' ∨ c = '-'

theorem IsNumeral.ascii {c : Char} (h : IsNumeral c) : c.toNat < 128 ∧ c.toNat ≠ 58 := by
  obtain h | rfl | rfl := h
  · have hle : 48 ≤ c.toNat ∧ c.toNat ≤ 57 := Char.isDigit_iff_toNat.mp h
    omega
  · decide
  · decide

theorem isDigit_of_parseDigits {cs : List Char} {n : ℕ} (h : parseDigits cs = some n) :
    ∀ c ∈ cs, c.isDigit := by
  unfold parseDigits at h
  split_ifs at h with hdigits
  exact List.all_eq_true.mp hdigits.2

/-- What reads as an integer has digits and a sign in it. -/
theorem isNumeral_of_parseI64 {cs : List Char} {n : ℤ} (h : parseI64 cs = some n) :
    ∀ c ∈ cs, IsNumeral c := by
  unfold parseI64 at h
  intro c hc
  split at h
  · obtain ⟨k, hk, -⟩ := Option.bind_eq_some_iff.mp h
    obtain rfl | hc := List.mem_cons.mp hc
    · exact .inr (.inl rfl)
    · exact .inl (isDigit_of_parseDigits hk c hc)
  · obtain ⟨k, hk, -⟩ := Option.bind_eq_some_iff.mp h
    obtain rfl | hc := List.mem_cons.mp hc
    · exact .inr (.inr rfl)
    · exact .inl (isDigit_of_parseDigits hk c hc)
  · obtain ⟨k, hk, -⟩ := Option.bind_eq_some_iff.mp h
    exact .inl (isDigit_of_parseDigits hk c hc)

/-- Characters of one byte can be read back. -/
theorem ofNat_asBytes {cs : List Char} (h : ∀ c ∈ cs, c.toNat < 128) :
    (asBytes cs).map (fun b => Char.ofNat b.toNat) = cs := by
  rw [asBytes_of_ascii h, List.map_map]
  conv_rhs => rw [← List.map_id cs]
  refine List.map_congr_left fun c hc => ?_
  have hsmall : c.toNat < 256 := (h c hc).trans (by decide)
  rw [Function.comp_apply, UInt8.toNat_ofNat_of_lt' hsmall, Char.ofNat_toNat, id]

/-- **Framing.** Behind a header that reads as an integer, the signed text tells the
header and the body. -/
theorem signedText_inj {header header' : List Char} {body body' : List UInt8} {ts ts' : ℤ}
    (hts : parseI64 header = some ts) (hts' : parseI64 header' = some ts')
    (h : signedText header body = signedText header' body') : header = header' ∧ body = body' := by
  have hmark : ∀ {cs : List Char} {n : ℤ}, parseI64 cs = some n → ∀ b ∈ asBytes cs, ¬ b = 58 := by
    intro cs n hn b hb hmark
    rw [asBytes_of_ascii fun c hc => (isNumeral_of_parseI64 hn c hc).ascii.1] at hb
    obtain ⟨c, hc, rfl⟩ := List.mem_map.mp hb
    obtain ⟨hlt, hne⟩ := (isNumeral_of_parseI64 hn c hc).ascii
    have htoNat := congrArg UInt8.toNat hmark
    rw [UInt8.toNat_ofNat_of_lt' (show c.toNat < 256 by omega)] at htoNat
    exact hne htoNat
  have hcolon : ∀ bytes : List UInt8, asBytes ":".toList ++ bytes = 58 :: bytes := fun _ => rfl
  unfold signedText at h
  rw [hcolon, hcolon] at h
  obtain ⟨hheader, -, hbody⟩ := Framing.append_cons_inj (hmark hts) (hmark hts') rfl rfl
    (List.append_cancel_left h)
  refine ⟨?_, hbody⟩
  rw [← ofNat_asBytes fun c hc => (isNumeral_of_parseI64 hts c hc).ascii.1, hheader,
    ofNat_asBytes fun c hc => (isNumeral_of_parseI64 hts' c hc).ascii.1]

/-! ### The check -/

section

variable {hmac : List UInt8 → List UInt8 → List UInt8} {slackSecret : List Char} {build : Build}
  {now : Timestamp} {header : List Char} {body : List UInt8} {signature : List Char} {ts : ℤ}

/-- `v0=` and the MAC in hexadecimal, in digits of either case. -/
def IsSignature (hmac : List UInt8 → List UInt8 → List UInt8) (slackSecret : List Char)
    (header : List Char) (body : List UInt8) (signature : List Char) : Prop :=
  ∃ sigHex, signature = "v0=".toList ++ sigHex ∧
    sigHex.map Char.toLower = Hex.encode (mac hmac slackSecret header body)

theorem checkSignature_eq_ok :
    checkSignature hmac slackSecret header body signature = .ok () ↔
      IsSignature hmac slackSecret header body signature := by
  unfold checkSignature
  constructor
  · intro h
    split at h
    · cases h
    · next sigHex hprefix =>
      split at h
      · cases h
      · next sigBytes hdecode =>
        split_ifs at h with hmac
        exact ⟨sigHex, (List.isPrefixOf?_eq_some_iff_append_eq.mp hprefix).symm,
          Hex.decode_eq_some.mp (hmac ▸ hdecode)⟩
  · rintro ⟨sigHex, rfl, hhex⟩
    rw [List.isPrefixOf?_eq_some_iff_append_eq.mpr rfl]
    simp only [Hex.decode_eq_some.mpr hhex, if_true]

theorem Build.i64_eq_some {n : ℤ} (h : IsI64 n) : build.i64 n = some n := if_pos h

/-- Where the age is an `i64` no build overflows. -/
theorem verifyRequestSignature_eq (hts : parseI64 header = some ts) (hage : |now.val - ts| < 2 ^ 63) :
    verifyRequestSignature hmac slackSecret build now header body signature =
      some (if |now.val - ts| > maxRequestAgeInSeconds then
          .error (.invalidSignature "stale request")
        else checkSignature hmac slackSecret header body signature) := by
  obtain ⟨hlo, hhi⟩ := abs_lt.mp hage
  have hdifference : IsI64 (now.val - ts) := ⟨by omega, by omega⟩
  have habs : IsI64 |now.val - ts| := ⟨by have := abs_nonneg (now.val - ts); omega, by omega⟩
  unfold verifyRequestSignature
  simp only [hts]
  rw [Build.i64_eq_some hdifference, Option.bind_some, Build.i64_eq_some habs, Option.map_some]

/-- **The wrap.** A request that is `2^63` seconds old passes the check of its age in
a release build. -/
theorem verifyRequestSignature_wraps (hts : parseI64 header = some ts)
    (hage : now.val - ts = 2 ^ 63) :
    verifyRequestSignature hmac slackSecret .release now header body signature =
      some (checkSignature hmac slackSecret header body signature) := by
  have hdifference : Build.release.i64 (now.val - ts) = some (-2 ^ 63) := by
    rw [hage]
    decide
  have habs : Build.release.i64 |-2 ^ 63| = some (-2 ^ 63) := by decide
  unfold verifyRequestSignature
  simp only [hts]
  rw [hdifference, Option.bind_some, habs, Option.map_some]
  rfl

end

/-! ### Exactness -/

/-- What is asked of the check at one time, for one request: it does not overflow
(a debug build does not panic); it accepts what has a signature and is ten
seconds old or ahead at most; it accepts what is signed then; and it accepts no
signature for another timestamp or body than it was made for, if the MAC tells
messages apart. -/
structure ExactCheck (hmac : List UInt8 → List UInt8 → List UInt8) (slackSecret : List Char)
    (now : Timestamp) (header : List Char) (body : List UInt8) (signature : List Char) : Prop where
  noOverflow : verifyRequestSignature hmac slackSecret .debug now header body signature ≠ none
  accepts : ∀ build,
    verifyRequestSignature hmac slackSecret build now header body signature = some (.ok ()) ↔
      (∃ ts, parseI64 header = some ts ∧ |now.val - ts| ≤ maxRequestAgeInSeconds) ∧
        IsSignature hmac slackSecret header body signature
  signed : ∀ build, ∀ ts : Timestamp, |now.val - ts.val| ≤ maxRequestAgeInSeconds →
    verifyRequestSignature hmac slackSecret build now (toString ts.val).toList body
      (sign hmac slackSecret ts.val body) = some (.ok ())
  bound : Function.Injective (hmac (asBytes slackSecret)) → ∀ build, ∀ ts : Timestamp, ∀ body',
    verifyRequestSignature hmac slackSecret build now header body
      (sign hmac slackSecret ts.val body') = some (.ok ()) →
    header = (toString ts.val).toList ∧ body = body'

section

variable {hmac : List UInt8 → List UInt8 → List UInt8} {slackSecret : List Char} {build : Build}
  {now : Timestamp} {header header' : List Char} {body body' : List UInt8} {signature : List Char} {ts : ℤ}

theorem isSignature_sign (ts : ℤ) :
    IsSignature hmac slackSecret (toString ts).toList body (sign hmac slackSecret ts body) :=
  ⟨_, rfl, Hex.decode_eq_some.mp (Hex.decode_encode _)⟩

/-- A signature is that of one text. -/
theorem IsSignature.mac_eq (h : IsSignature hmac slackSecret header body signature)
    (h' : IsSignature hmac slackSecret header' body' signature) :
    mac hmac slackSecret header body = mac hmac slackSecret header' body' := by
  obtain ⟨sigHex, rfl, hhex⟩ := h
  obtain ⟨sigHex', heq, hhex'⟩ := h'
  obtain rfl := List.append_cancel_left heq
  have hdecode := Hex.decode_eq_some.mpr hhex
  rw [Hex.decode_eq_some.mpr hhex'] at hdecode
  exact (Option.some.inj hdecode).symm

/-- What is accepted reads as a timestamp and has a signature, whatever its age. -/
theorem accepted_of_verify
    (h : verifyRequestSignature hmac slackSecret build now header body signature = some (.ok ())) :
    (∃ ts, parseI64 header = some ts) ∧ IsSignature hmac slackSecret header body signature := by
  unfold verifyRequestSignature at h
  split at h
  · cases h
  · next ts hts =>
    obtain ⟨difference, -, h⟩ := Option.bind_eq_some_iff.mp h
    obtain ⟨age, -, h⟩ := Option.map_eq_some_iff.mp h
    split_ifs at h
    exact ⟨⟨ts, hts⟩, checkSignature_eq_ok.mp h⟩

/-- In a debug build the age does not overflow only where it is an `i64`. -/
theorem age_of_noOverflow (hts : parseI64 header = some ts)
    (h : verifyRequestSignature hmac slackSecret .debug now header body signature ≠ none) :
    |now.val - ts| < 2 ^ 63 := by
  have hdebug : ∀ n x : ℤ, Build.debug.i64 n = some x → IsI64 n ∧ x = n := by
    intro n x hx
    unfold Build.i64 at hx
    split_ifs at hx with hn
    exact ⟨hn, (Option.some.inj hx).symm⟩
  obtain ⟨answer, hanswer⟩ := Option.ne_none_iff_exists'.mp h
  unfold verifyRequestSignature at hanswer
  simp only [hts] at hanswer
  obtain ⟨difference, hdifference, hanswer⟩ := Option.bind_eq_some_iff.mp hanswer
  obtain ⟨age, hage, -⟩ := Option.map_eq_some_iff.mp hanswer
  obtain ⟨-, rfl⟩ := hdebug _ _ hdifference
  exact Int.lt_of_le_sub_one (hdebug _ _ hage).1.2

/-- **The request check.** It is exact at a time, for a request, if and only if the
header is not the text of an `i64` or that of a timestamp less than `2^63` seconds
away. -/
theorem requestCheck_exact_iff :
    ExactCheck hmac slackSecret now header body signature ↔
      ∀ ts, parseI64 header = some ts → |now.val - ts| < 2 ^ 63 := by
  constructor
  · exact fun h ts hts => age_of_noOverflow hts h.noOverflow
  · intro h
    refine ⟨?_, fun build => ⟨fun hok => ?_, ?_⟩, fun build ts hage => ?_, fun hinj build ts body' hok => ?_⟩
    · cases hts : parseI64 header with
      | none =>
        unfold verifyRequestSignature
        simp only [hts]
        nofun
      | some ts =>
        rw [verifyRequestSignature_eq hts (h ts hts)]
        nofun
    · obtain ⟨⟨ts, hts⟩, hsignature⟩ := accepted_of_verify hok
      rw [verifyRequestSignature_eq hts (h ts hts)] at hok
      split_ifs at hok with hstale
      · cases hok
      · exact ⟨⟨ts, hts, not_lt.mp hstale⟩, hsignature⟩
    · rintro ⟨⟨ts, hts, hage⟩, hsignature⟩
      rw [verifyRequestSignature_eq hts (h ts hts), if_neg (not_lt.mpr hage),
        checkSignature_eq_ok.mpr hsignature]
    · have hsmall : |now.val - ts.val| < 2 ^ 63 := hage.trans_lt (by decide)
      rw [verifyRequestSignature_eq (parseI64_toString ts.property) hsmall, if_neg (not_lt.mpr hage),
        checkSignature_eq_ok.mpr (isSignature_sign ts.val)]
    · obtain ⟨⟨ts', hts'⟩, hsignature⟩ := accepted_of_verify hok
      have hmac := hsignature.mac_eq (isSignature_sign ts.val)
      exact signedText_inj hts' (parseI64_toString ts.property) (hinj hmac)

end

/-- The MAC of `v0:1750000000:{}` under the secret `slack-secret`, as HMAC-SHA256 has
it, and a longer text for any other message. -/
def sampleHmac (_key message : List UInt8) : List UInt8 :=
  if message = signedText "1750000000".toList [123, 125] then
    [141, 23, 160, 10, 84, 103, 171, 166, 9, 71, 181, 5, 183, 23, 196, 245, 229, 65, 101, 154, 91, 186,
      141, 6, 189, 248, 245, 11, 150, 105, 38, 211]
  else List.replicate 32 0 ++ message

theorem requestCheck_exact_iff_fourSeconds :
    ExactCheck sampleHmac "slack-secret".toList ⟨1750000004, by decide⟩ "1750000000".toList [123, 125]
        "v0=8d17a00a5467aba60947b505b717c4f5e541659a5bba8d06bdf8f50b966926d3".toList ↔
      ∀ ts, parseI64 "1750000000".toList = some ts → |1750000004 - ts| < 2 ^ 63 :=
  requestCheck_exact_iff

/-- A timestamp `2^63` seconds ago. -/
theorem not_requestCheck_exact :
    ¬ ∀ (hmac : List UInt8 → List UInt8 → List UInt8) (slackSecret : List Char) (now : Timestamp)
      (header : List Char) (body : List UInt8) (signature : List Char),
      ExactCheck hmac slackSecret now header body signature := by
  intro h
  have hexact := h sampleHmac "slack-secret".toList ⟨1750000000, by decide⟩
    "-9223372035104775808".toList [123, 125] "v0=".toList
  exact hexact.noOverflow (by decide)

end SlackBot
end Gitdot
