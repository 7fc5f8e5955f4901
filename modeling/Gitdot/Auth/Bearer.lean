/-
# Bearer tokens

The two kinds of JWT that the server hands out, the access token of a user's
session and the token of a task, and the authenticators that read one from
the `Authorization` header. Both kinds are signed with the same key for the
same audience, and `UserJwt` and `TaskJwt` have one body: each asks for a
signature, an expiry and an audience, and takes the subject as the id of its
principal.

The token library is a parameter, `JsonWebToken`; what is assumed of it is
`Signs`: it verifies what was signed, and nothing else.

Key definitions: `Uuid.parseStr`, `JsonWebToken`, `Issued`, `Signs`,
`Extract.authenticateJwt`.
Key theorems: `Uuid.parseStr_text`, `Signs.payload_eq`,
`Extract.authenticateJwt_ok`, `Extract.authenticateJwt_issued`.
-/
import Gitdot.Auth.Store
import Mathlib.Data.Set.Basic

namespace Gitdot

open Lib

/-! ### Reading a UUID -/

/-- The value of a hexadecimal digit of either case. -/
def hexValue (ch : Char) : Option ℕ :=
  if '0' ≤ ch ∧ ch ≤ '9' then some (ch.toNat - '0'.toNat)
  else if 'a' ≤ ch ∧ ch ≤ 'f' then some (ch.toNat - 'a'.toNat + 10)
  else if 'A' ≤ ch ∧ ch ≤ 'F' then some (ch.toNat - 'A'.toNat + 10)
  else none

/-- The number that hexadecimal digits write. -/
def ofHex (cs : List Char) : Option ℕ :=
  cs.foldlM (fun n ch => (hexValue ch).map (16 * n + ·)) 0

def Uuid.parseSimple (cs : List Char) : Option Uuid :=
  if cs.length = 32 then (ofHex cs).map (Fin.ofNat _) else none

def Uuid.parseHyphenated (cs : List Char) : Option Uuid :=
  if cs.length = 36 ∧ ∀ k ∈ [8, 13, 18, 23], cs[k]? = some '-' then
    parseSimple (cs.take 8 ++ (cs.drop 9).take 4 ++ (cs.drop 14).take 4 ++ (cs.drop 19).take 4 ++
      cs.drop 24)
  else none

/-- `Uuid::parse_str`: 32 digits, or with hyphens, and these in braces or
after `urn:uuid:`. -/
def Uuid.parseStr (text : String) : Option Uuid :=
  let cs := text.toList
  if cs.length = 32 then parseSimple cs
  else if cs.length = 36 then parseHyphenated cs
  else if cs.length = 38 ∧ cs.head? = some '{' ∧ cs.getLast? = some '}' then
    parseHyphenated ((cs.drop 1).take 36)
  else if cs.length = 45 ∧ cs.take 9 = "urn:uuid:".toList then parseHyphenated (cs.drop 9)
  else none

theorem hexValue_digitChar {d : ℕ} (hd : d < 16) : hexValue (Nat.digitChar d) = some d := by
  have hall : ∀ d : Fin 16, hexValue (Nat.digitChar d) = some d.val := by decide
  exact hall ⟨d, hd⟩

theorem length_hexDigits : ∀ width n, (hexDigits width n).length = width
  | 0, _ => rfl
  | width + 1, n => by simp [hexDigits, length_hexDigits width]

theorem ofHex_hexDigits : ∀ width n, ofHex (hexDigits width n) = some (n % 16 ^ width)
  | 0, n => by simp [hexDigits, ofHex, Nat.mod_one]
  | width + 1, n => by
    have ih := ofHex_hexDigits width (n / 16)
    unfold ofHex at ih ⊢
    rw [hexDigits, List.foldlM_append, ih]
    simp only [Option.bind_eq_bind, Option.bind_some, List.foldlM_cons, List.foldlM_nil,
      hexValue_digitChar (Nat.mod_lt n (by decide : 0 < 16)), Option.map_some, Option.pure_def]
    rw [pow_succ', Nat.mod_mul, Nat.add_comm]

/-- Digits with a hyphen after the 8th, the 12th, the 16th and the 20th. -/
def hyphenated (digits : List Char) : List Char :=
  digits.take 8 ++ '-' :: (digits.drop 8).take 4 ++ '-' :: (digits.drop 12).take 4 ++
    '-' :: (digits.drop 16).take 4 ++ '-' :: (digits.drop 20).take 12

theorem parseHyphenated_hyphenated {digits : List Char} (hlen : digits.length = 32) :
    Uuid.parseHyphenated (hyphenated digits) = Uuid.parseSimple digits := by
  obtain ⟨a, r, rfl, ha⟩ : ∃ a r, digits = a ++ r ∧ a.length = 8 :=
    ⟨_, _, (List.take_append_drop 8 digits).symm, by simp [hlen]⟩
  obtain ⟨b, r, rfl, hb⟩ : ∃ b r', r = b ++ r' ∧ b.length = 4 :=
    ⟨_, _, (List.take_append_drop 4 r).symm, by simp at hlen ⊢; omega⟩
  obtain ⟨d, r, rfl, hd⟩ : ∃ d r', r = d ++ r' ∧ d.length = 4 :=
    ⟨_, _, (List.take_append_drop 4 r).symm, by simp at hlen ⊢; omega⟩
  obtain ⟨e, f, rfl, he⟩ : ∃ e r', r = e ++ r' ∧ e.length = 4 :=
    ⟨_, _, (List.take_append_drop 4 r).symm, by simp at hlen ⊢; omega⟩
  have hf : f.length = 12 := by simp at hlen; omega
  have hform : hyphenated (a ++ (b ++ (d ++ (e ++ f)))) =
      a ++ '-' :: b ++ '-' :: d ++ '-' :: e ++ '-' :: f := by
    simp (disch := omega) [hyphenated, List.drop_append, ha, hb, hd, List.drop_eq_nil_of_le,
      List.take_of_length_le]
  rw [hform]
  unfold Uuid.parseHyphenated
  rw [if_pos ⟨by simp [ha, hb, hd, he, hf], by simp [List.getElem?_append, ha, hb, hd, he]⟩]
  simp (disch := omega) [List.drop_append, ha, hb, hd, he, List.drop_eq_nil_of_le]

theorem Uuid.toList_text (id : Uuid) : (Uuid.text id).toList = hyphenated (hexDigits 32 id.val) := by
  simp [Uuid.text, hyphenated, toString]

/-- A UUID is read back from its text. -/
theorem Uuid.parseStr_text (id : Uuid) : Uuid.parseStr (Uuid.text id) = some id := by
  have hlen := length_hexDigits 32 id.val
  have htext := Uuid.toList_text id
  have hlen' : (hyphenated (hexDigits 32 id.val)).length = 36 := by
    simp [hyphenated, hlen]
  unfold Uuid.parseStr
  rw [htext, if_neg (by omega), if_pos hlen', parseHyphenated_hyphenated hlen, Uuid.parseSimple,
    if_pos hlen, ofHex_hexDigits]
  have hid : id.val % 16 ^ 32 = id.val := Nat.mod_eq_of_lt (by have := id.isLt; omega)
  rw [hid, Option.map_some, Fin.ofNat_val_eq_self]

theorem Uuid.text_injective : Function.Injective Uuid.text := by
  intro a b h
  have hparse := Uuid.parseStr_text a
  rw [h, Uuid.parseStr_text b] at hparse
  exact (Option.some.inj hparse).symm

/-- `str::strip_prefix`. -/
def stripPrefix (pattern text : String) : Option String :=
  if pattern.toList <+: text.toList then
    some (String.ofList (text.toList.drop pattern.toList.length))
  else none

theorem stripPrefix_eq_some {pattern text rest : String} :
    stripPrefix pattern text = some rest ↔ text = pattern ++ rest := by
  unfold stripPrefix
  constructor
  · intro h
    split_ifs at h with hp
    obtain ⟨t, ht⟩ := hp
    cases h
    rw [← ht, List.drop_left, ← String.toList_inj, String.toList_append, String.toList_ofList, ht]
  · rintro rfl
    rw [if_pos (by simp)]
    simp

namespace Auth

/-! ### The token library -/

/-- What the server signs: a `JwtClaims`, or a `GitdotClaims`. -/
inductive Payload where
  | jwt (claims : JwtClaims)
  | gitdot (claims : GitdotClaims)
  deriving DecidableEq

/-- The payload read as `JwtClaims`, which ignores what else it holds. -/
def Payload.jwtClaims : Payload → JwtClaims
  | .jwt claims => claims
  | .gitdot claims => claims.toJwtClaims

/-- The token library under the server's private key. `sign` is `encode`;
`fromEdPem` reads a public key; `verify` is what `decode` does before it
validates the claims, which is to check the signature and read the payload;
`uuidError` is the text of the error of `Uuid::parse_str`. -/
structure JsonWebToken (Key : Type) where
  sign : Payload → String
  fromEdPem : String → Except String Key
  verify : Key → String → Except String Payload
  uuidError : String → String

/-- The leeway that `Validation::new` gives an expiry. -/
def leeway : ℕ := 60

section Tokens

variable {Key : Type} (c : JsonWebToken Key) (publicKey : String) (now : Time)

/-- `decode::<JwtClaims>` under a `Validation` for one audience: the claims
must not have expired and must name it. -/
def JsonWebToken.decode (key : Key) (audience jwt : String) : Except String JwtClaims := do
  let payload ← c.verify key jwt
  let claims := payload.jwtClaims
  if claims.exp < now - leeway then throw "ExpiredSignature"
  else if audience ∉ claims.aud then throw "InvalidAudience"
  else return claims

variable {c now} in
theorem JsonWebToken.decode_eq_ok {key : Key} {audience jwt : String} {claims : JwtClaims} :
    c.decode now key audience jwt = .ok claims ↔ ∃ payload, c.verify key jwt = .ok payload ∧
      now ≤ payload.jwtClaims.exp + leeway ∧ audience ∈ payload.jwtClaims.aud ∧
      payload.jwtClaims = claims := by
  unfold JsonWebToken.decode
  rw [bind_eq_ok]
  refine exists_congr fun payload => and_congr_right fun _ => ?_
  have hexp : payload.jwtClaims.exp < now - leeway ↔ ¬ now ≤ payload.jwtClaims.exp + leeway :=
    Nat.lt_sub_iff_add_lt.trans Nat.not_le.symm
  by_cases he : now ≤ payload.jwtClaims.exp + leeway <;>
    by_cases ha : audience ∈ payload.jwtClaims.aud <;>
      simp [hexp, he, ha, throw, throwThe, MonadExceptOf.throw, pure, Except.pure]

structure IssueTaskJwtRequest where
  taskId : Uuid
  duration : ℕ
  deriving DecidableEq

/-- The claims that `issue_task_token` signs. -/
def Store.issueTaskToken (s : Store) (request : IssueTaskJwtRequest) : JwtClaims where
  iss := gitdotServerId
  aud := [gitdotServerId, s2ServerId]
  sub := Uuid.text request.taskId
  iat := s.now
  exp := s.now + request.duration

/-- A bearer token that the server has issued, out of the store it then had. -/
inductive Issued where
  | session (s : Store) (user : Uuid) (username : String)
  | task (s : Store) (request : IssueTaskJwtRequest)

namespace Issued

def payload : Issued → Payload
  | .session s user username => .gitdot (s.generateGitdotJwt user username)
  | .task s request => .jwt (s.issueTaskToken request)

/-- The token as it goes out. -/
def token (i : Issued) : String := c.sign i.payload

/-- The id of whom or what the token is for. -/
def subject : Issued → Uuid
  | .session _ user _ => user
  | .task _ request => request.taskId

/-- When the token expires. -/
def exp (i : Issued) : Time := i.payload.jwtClaims.exp

def IsTask : Issued → Prop
  | .session _ _ _ => False
  | .task _ _ => True

theorem sub_payload (i : Issued) : i.payload.jwtClaims.sub = Uuid.text i.subject := by
  cases i <;> rfl

theorem gitdotServerId_mem_aud (i : Issued) : gitdotServerId ∈ i.payload.jwtClaims.aud := by
  cases i <;> simp [payload, Payload.jwtClaims, Store.generateGitdotJwt, Store.issueTaskToken]

/-- Two tokens of one payload are of one kind and for one subject. -/
theorem isTask_and_subject_of_payload {i j : Issued} (h : i.payload = j.payload) :
    (i.IsTask ↔ j.IsTask) ∧ i.subject = j.subject := by
  have hsub : i.subject = j.subject := by
    apply Uuid.text_injective
    rw [← sub_payload, ← sub_payload, h]
  refine ⟨?_, hsub⟩
  cases i with
  | session => cases j with
    | session => exact Iff.rfl
    | task => cases h
  | task => cases j with
    | session => cases h
    | task => exact Iff.rfl

end Issued

/-- Under the public key the library verifies the tokens the server issued,
and no other. -/
structure Signs (issued : Set Issued) : Prop where
  verifies : ∀ {key}, c.fromEdPem publicKey = .ok key →
    ∀ i ∈ issued, c.verify key (i.token c) = .ok i.payload
  unforgeable : ∀ {key}, c.fromEdPem publicKey = .ok key →
    ∀ {jwt payload}, c.verify key jwt = .ok payload → ∃ i ∈ issued, jwt = i.token c

variable {c publicKey} in
/-- Tokens that are the same string have the same payload. -/
theorem Signs.payload_eq {issued : Set Issued} (hsigns : Signs c publicKey issued) {key : Key}
    (hkey : c.fromEdPem publicKey = .ok key) {i j : Issued} (hi : i ∈ issued) (hj : j ∈ issued)
    (hij : i.token c = j.token c) : i.payload = j.payload := by
  have hi := hsigns.verifies hkey i hi
  rw [hij, hsigns.verifies hkey j hj] at hi
  exact (Except.ok.inj hi).symm

/-- The server can read its key, and the token has not expired at the time. -/
def Issued.Live (i : Issued) : Prop :=
  (∃ key, c.fromEdPem publicKey = .ok key) ∧ now ≤ i.exp + leeway

/-! ### The authenticators -/

/-- `TokenExtractionError`. -/
inductive TokenExtractionError where
  | missingHeader
  | invalidHeaderFormat
  | invalidPublicKey (reason : String)
  | invalidToken (reason : String)
  | unauthorized
  deriving DecidableEq

namespace Extract

/-- `extract_auth_header`, of the `Authorization` header if there is one in
visible ASCII. -/
def extractAuthHeader (authorization : Option String) : Except TokenExtractionError String :=
  okOr authorization .missingHeader

/-- The body of the two authenticators of bearer tokens. -/
def authenticateJwt (authorization : Option String) : Except TokenExtractionError Uuid := do
  let header ← extractAuthHeader authorization
  let jwt ← okOr (stripPrefix "Bearer " header) .invalidHeaderFormat
  let key ← (c.fromEdPem publicKey).mapError .invalidPublicKey
  let claims ← (c.decode now key gitdotServerId jwt).mapError .invalidToken
  okOr (Uuid.parseStr claims.sub) (.invalidToken (c.uuidError claims.sub))

def UserJwt.authenticate : Option String → Except TokenExtractionError Uuid :=
  authenticateJwt c publicKey now

def TaskJwt.authenticate : Option String → Except TokenExtractionError Uuid :=
  authenticateJwt c publicKey now

/-- `User::authenticate`. `userToken` is `UserToken::authenticate`, which
reads the `Basic` headers. -/
def User.authenticate (userToken : String → Except TokenExtractionError Uuid)
    (authorization : Option String) : Except TokenExtractionError Uuid := do
  let header ← extractAuthHeader authorization
  if (stripPrefix "Bearer " header).isSome then UserJwt.authenticate c publicKey now authorization
  else if (stripPrefix "Basic " header).isSome then userToken header
  else throw .invalidHeaderFormat

variable {c publicKey now}

/-- A bearer token is accepted if it verifies, has not expired, names the
server in its audience and a UUID as its subject. -/
theorem authenticateJwt_ok {authorization : Option String} {id : Uuid} :
    authenticateJwt c publicKey now authorization = .ok id ↔
      ∃ jwt key payload, authorization = some ("Bearer " ++ jwt) ∧
        c.fromEdPem publicKey = .ok key ∧ c.verify key jwt = .ok payload ∧
        now ≤ payload.jwtClaims.exp + leeway ∧ gitdotServerId ∈ payload.jwtClaims.aud ∧
        Uuid.parseStr payload.jwtClaims.sub = some id := by
  unfold authenticateJwt
  simp only [bind_eq_ok, mapError_eq_ok, okOr_eq_ok, extractAuthHeader, stripPrefix_eq_some,
    JsonWebToken.decode_eq_ok]
  constructor
  · rintro ⟨header, rfl, jwt, rfl, key, hkey, claims, ⟨payload, hverify, hexp, haud, rfl⟩, hid⟩
    exact ⟨jwt, key, payload, rfl, hkey, hverify, hexp, haud, hid⟩
  · rintro ⟨jwt, key, payload, rfl, hkey, hverify, hexp, haud, hid⟩
    exact ⟨_, rfl, jwt, rfl, key, hkey, _, ⟨payload, hverify, hexp, haud, rfl⟩, hid⟩

/-- Of the tokens that the server issued an authenticator accepts the live
ones, whatever their kind, and takes the subject as its principal. -/
theorem authenticateJwt_issued {issued : Set Issued} (hsigns : Signs c publicKey issued)
    {authorization : Option String} {id : Uuid} :
    authenticateJwt c publicKey now authorization = .ok id ↔
      ∃ i ∈ issued, authorization = some ("Bearer " ++ i.token c) ∧ i.Live c publicKey now ∧
        i.subject = id := by
  rw [Extract.authenticateJwt_ok]
  constructor
  · rintro ⟨jwt, key, payload, rfl, hkey, hverify, hexp, -, hid⟩
    obtain ⟨i, hi, rfl⟩ := hsigns.unforgeable hkey hverify
    have hpayload := hsigns.verifies hkey i hi
    rw [hverify] at hpayload
    cases hpayload
    rw [i.sub_payload, Uuid.parseStr_text] at hid
    exact ⟨i, hi, rfl, ⟨⟨key, hkey⟩, hexp⟩, Option.some.inj hid⟩
  · rintro ⟨i, hi, rfl, ⟨⟨key, hkey⟩, hexp⟩, rfl⟩
    refine ⟨_, key, i.payload, rfl, hkey, hsigns.verifies hkey i hi, hexp,
      i.gitdotServerId_mem_aud, ?_⟩
    rw [i.sub_payload, Uuid.parseStr_text]

/-- `User` hands a bearer token to `UserJwt`. -/
theorem user_authenticate_bearer {userToken : String → Except TokenExtractionError Uuid}
    {jwt : String} :
    User.authenticate c publicKey now userToken (some ("Bearer " ++ jwt)) =
      UserJwt.authenticate c publicKey now (some ("Bearer " ++ jwt)) := by
  have hstrip : stripPrefix "Bearer " ("Bearer " ++ jwt) = some jwt := stripPrefix_eq_some.mpr rfl
  change (if (stripPrefix "Bearer " ("Bearer " ++ jwt)).isSome then _ else _) = _
  rw [hstrip]
  exact if_pos rfl

end Extract

end Tokens
end Auth
end Gitdot
