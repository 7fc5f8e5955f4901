/-
# The calls of the authentication services

The store of these services: the clock, the tables, and the cache. `AuthCall`
lists what the session, device and account services call: the cache, the
repository layer, one statement or one transaction each, the mail, GitHub and
token clients, and the clock. `exec` performs a call.

A row inserted gets the next id the database draws; one that is taken is
refused by the primary key. A key of the cache set with a time to live is
absent once that time is over.

Key definitions: `Store`, `Setup`, `AuthCall`, `exec`, `authCalls`.
-/
import Mathlib.Data.String.Basic
import Mathlib.Logic.Function.Basic
import Gitdot.Lib.Prog
import Gitdot.Auth.Model

namespace Gitdot
namespace Auth

open Lib Prog

/-- The keys under which a send is rate-limited, `auth_code_send:…` and
`email_verify_send:…`. -/
inductive CooldownKey where
  | authCodeSend (emailHash : String)
  | emailVerifySend (hash : String)
  deriving DecidableEq

/-- What the authentication services read and write. Codes come latest first;
`grace` and `cooldowns` hold what was last set under a key and until when it
lives; `draws` counts the ids drawn. -/
structure Store where
  now : Time
  draws : ℕ
  users : Table Account
  emails : List UserEmail
  sessions : Table Session
  authCodes : List AuthCode
  devices : List DeviceAuthorization
  tokens : List AccessToken
  emailCodes : List EmailVerificationCode
  grace : String → Option (GraceEntry × Time)
  cooldowns : CooldownKey → Option Time

/-- What the services are set up with: the hash, the ids that the database
draws, the check of an OAuth state at a time, and what GitHub answers. -/
structure Setup where
  hashString : String → String
  drawId : ℕ → Uuid
  verifyOauthState : Time → String → Bool
  exchangeCode : String → Except AuthCallError String
  getUserEmails : String → Except AuthCallError (List GitHubEmail)

/-- The store before the first request. -/
def Store.initial (now : Time) : Store where
  now := now
  draws := 0
  users := .empty
  emails := []
  sessions := .empty
  authCodes := []
  devices := []
  tokens := []
  emailCodes := []
  grace _ := none
  cooldowns _ := none

/-- The errors of a statement. -/
def dbError {α : Type} (e : DatabaseError) : Except AuthCallError α := .error (.database e)

namespace Store

variable (s : Store)

/-! ### The cache -/

/-- The grace entry of a token's hash, if it still lives. -/
def graceEntry (oldHash : String) : Option GraceEntry :=
  (s.grace oldHash).bind fun x => if s.now < x.2 then some x.1 else none

/-- A cooldown still runs. -/
def coolingDown (key : CooldownKey) : Bool :=
  (s.cooldowns key).any fun expiry => decide (s.now < expiry)

/-- `SET key entry NX EX ttl`. -/
def setNxGrace (oldHash : String) (entry : GraceEntry) (ttl : ℕ) : Bool × Store :=
  if (s.graceEntry oldHash).isSome then (false, s)
  else (true, { s with grace := Function.update s.grace oldHash (some (entry, s.now + ttl)) })

/-- `SET key true NX EX ttl`. -/
def setNxCooldown (key : CooldownKey) (ttl : ℕ) : Bool × Store :=
  if s.coolingDown key then (false, s)
  else (true, { s with cooldowns := Function.update s.cooldowns key (some (s.now + ttl)) })

/-! ### Users -/

/-- A user with its addresses, the primary one first. -/
def project (a : Account) : User where
  id := a.id
  name := a.name
  provider := a.provider
  deletedAt := a.deletedAt
  emails := (s.emails.filter fun e => decide (e.userId = a.id ∧ e.isPrimary = true)) ++
    s.emails.filter fun e => decide (e.userId = a.id ∧ e.isPrimary = false)

def getById (id : Uuid) : Option User := (s.users.get? id).map s.project

/-- `get_by_primary_email`: the first row of the join. -/
def getByPrimaryEmail (email : String) : Option User :=
  (s.emails.find? fun e => decide (e.email = email ∧ e.isPrimary = true)).bind fun e =>
    s.getById e.userId

def isEmailTaken (email : String) : Bool :=
  s.emails.any fun e => decide (e.email = email ∧ e.isVerified = true)

/-- One attempt of `create`: a user and its primary address. -/
def insertUser (c : Setup) (email : String) (isVerified : Bool) (provider : AuthProvider)
    (handle : String) : Option (Account × Store) :=
  let account : Account := ⟨c.drawId s.draws, handle, provider, none⟩
  if s.users.rows.any (fun a => decide (a.name = handle)) then none
  else if isVerified ∧ s.isEmailTaken email then none
  else (s.users.insert? account).map fun users =>
    (account, { s with
      draws := s.draws + 1
      users := users
      emails := s.emails ++ [⟨account.id, email, true, isVerified⟩] })

/-- `create`: a unique violation is tried again with the next handle. The
projection is read before the address is inserted. -/
def createUser (c : Setup) (email : String) (isVerified : Bool) (provider : AuthProvider) :
    List String → Store → Except AuthCallError User × Store
  | [], s => (dbError .uniqueViolation, s)
  | handle :: handles, s =>
    match s.insertUser c email isVerified provider handle with
    | some (account, s') =>
      (.ok ⟨account.id, account.name, account.provider, account.deletedAt, []⟩, s')
    | none => createUser c email isVerified provider handles { s with draws := s.draws + 1 }

/-- Another user holds the address verified: what the unique index on verified
addresses refuses. -/
def heldByOther (user : Uuid) (email : String) : Bool :=
  s.emails.any fun e => decide (e.email = email ∧ e.isVerified = true ∧ e.userId ≠ user)

/-- `verify_email` of the user repository: the primary address. -/
def verifyEmail (id : Uuid) : Except AuthCallError Unit × Store :=
  if s.emails.any fun e =>
      decide (e.userId = id ∧ e.isPrimary = true) && s.heldByOther id e.email then
    (dbError .uniqueViolation, s)
  else (.ok (), { s with
    emails := s.emails.map fun e =>
      if e.userId = id ∧ e.isPrimary = true then { e with isVerified := true } else e })

/-- `upsert_verified_emails`: `ON CONFLICT DO NOTHING` for each address. -/
def upsertVerifiedEmails (user : Uuid) : List String → List UserEmail → List UserEmail
  | [], rows => rows
  | email :: emails, rows =>
    if rows.any fun e =>
        decide (e.email = email ∧ (e.isVerified = true ∨ e.userId = user)) then
      upsertVerifiedEmails user emails rows
    else upsertVerifiedEmails user emails (rows ++ [⟨user, email, false, true⟩])

def markUserAsDeleted (id : Uuid) : Store :=
  { s with
    users := s.users.modify id
      (fun a => { a with deletedAt := some (a.deletedAt.getD s.now) }) fun _ => rfl }

/-! ### Login codes -/

/-- The newest unused and unexpired code of a user. -/
def activeAuthCode (user : Uuid) : Option AuthCode :=
  s.authCodes.find? fun c => decide (c.userId = user ∧ c.usedAt = none ∧ s.now < c.expiresAt)

def createAuthCode (c : Setup) (user : Uuid) (codeHash : String) (expiresAt : Time) :
    Except AuthCallError Unit × Store :=
  let id := c.drawId s.draws
  if s.authCodes.any fun r => decide (r.id = id ∨ r.codeHash = codeHash) then
    (dbError .uniqueViolation, { s with draws := s.draws + 1 })
  else (.ok (), { s with
    draws := s.draws + 1
    authCodes := ⟨id, user, codeHash, 0, expiresAt, none⟩ :: s.authCodes })

def invalidateAuthCodes (user : Uuid) : Store :=
  { s with authCodes := s.authCodes.map fun c =>
      if c.userId = user ∧ c.usedAt = none then { c with usedAt := some s.now } else c }

/-- The row of a code rewritten. -/
def setAuthCode (id : Uuid) (f : AuthCode → AuthCode) : Store :=
  { s with authCodes := s.authCodes.map fun c => if c.id = id then f c else c }

/-- `verify_and_consume_auth_code`, one transaction. -/
def verifyAndConsumeAuthCode (user : Uuid) (codeHash : String) (maxAttempts : ℕ) :
    AuthCodeVerification × Store :=
  match s.activeAuthCode user with
  | none => (.noActiveCode, s)
  | some code =>
    if code.codeHash = codeHash then
      (.success, s.setAuthCode code.id fun c => { c with usedAt := some s.now })
    else
      let next := code.attemptCount + 1
      if maxAttempts ≤ next then
        (.attemptsExhausted, s.setAuthCode code.id fun c =>
          { c with attemptCount := next, usedAt := some s.now })
      else (.invalid, s.setAuthCode code.id fun c => { c with attemptCount := next })

/-! ### Sessions -/

def createSession (c : Setup) (user : Uuid) (refreshTokenHash : String) (family : Uuid)
    (expiresAt : Time) : Except AuthCallError Unit × Store :=
  let session : Session :=
    ⟨c.drawId s.draws, user, refreshTokenHash, family, expiresAt, none⟩
  let s' := { s with draws := s.draws + 1 }
  if s.sessions.rows.any fun r => decide (r.id = session.id) then (dbError .uniqueViolation, s')
  else
    match s.sessions.insert? session with
    | none => (dbError .uniqueViolation, s')
    | some sessions => (.ok (), { s' with sessions := sessions })

/-- The sessions that satisfy `p` revoked now. -/
def revoke (p : Session → Bool) : Store :=
  { s with
    sessions := s.sessions.mapRows
      (fun r => if p r then { r with revokedAt := some s.now } else r)
      fun r => by split_ifs <;> rfl }

def revokeSession (id : Uuid) : Store := s.revoke fun r => decide (r.id = id)

def revokeSessionsByFamily (family : Uuid) : Store :=
  s.revoke fun r => decide (r.refreshTokenFamily = family ∧ r.revokedAt = none)

def revokeSessionsByUser (user : Uuid) : Store :=
  s.revoke fun r => decide (r.userId = user ∧ r.revokedAt = none)

/-! ### Devices -/

def createDeviceAuthorization (c : Setup) (deviceCodeHash userCodeHash clientId : String)
    (expiresAt : Time) : Except AuthCallError Unit × Store :=
  let id := c.drawId s.draws
  let s' := { s with draws := s.draws + 1 }
  if s.devices.any fun d => decide
      (d.id = id ∨ d.deviceCodeHash = deviceCodeHash ∨ d.userCodeHash = userCodeHash) then
    (dbError .uniqueViolation, s')
  else (.ok (), { s' with
    devices := ⟨id, deviceCodeHash, userCodeHash, clientId, none, .pending, expiresAt⟩ ::
      s.devices })

def getDeviceAuthorization (deviceCodeHash : String) : Option DeviceAuthorization :=
  s.devices.find? fun d => decide (d.deviceCodeHash = deviceCodeHash)

def expireDeviceAuthorization (id : Uuid) : Store :=
  { s with devices := s.devices.map fun d => if d.id = id then { d with status := .expired } else d }

/-- `authorize_device`: the row that is pending and unexpired under the user
code, authorized. -/
def authorizeDevice (userCodeHash : String) (user : Uuid) : Option DeviceAuthorization × Store :=
  let matching (d : DeviceAuthorization) : Bool :=
    decide (d.userCodeHash = userCodeHash ∧ d.status = .pending ∧ s.now < d.expiresAt)
  let update (d : DeviceAuthorization) : DeviceAuthorization :=
    if matching d then { d with status := .authorized, userId := some user } else d
  ((s.devices.find? matching).map update, { s with devices := s.devices.map update })

def createToken (c : Setup) (principal : Uuid) (clientId tokenHash : String)
    (tokenType : TokenType) : Except AuthCallError Unit × Store :=
  let id := c.drawId s.draws
  let s' := { s with draws := s.draws + 1 }
  if s.tokens.any fun t => decide (t.id = id ∨ t.tokenHash = tokenHash) then
    (dbError .uniqueViolation, s')
  else (.ok (), { s' with tokens := ⟨id, principal, clientId, tokenHash, tokenType⟩ :: s.tokens })

/-! ### Secondary addresses -/

def invalidateCodesForEmail (user : Uuid) (email : String) : Store :=
  { s with emailCodes := s.emailCodes.map fun c =>
      if c.userId = user ∧ c.email = email ∧ c.usedAt = none then { c with usedAt := some s.now }
      else c }

def createCode (c : Setup) (user : Uuid) (email codeHash : String) (expiresAt : Time) :
    Except AuthCallError Unit × Store :=
  let id := c.drawId s.draws
  let s' := { s with draws := s.draws + 1 }
  if s.emailCodes.any fun r => decide (r.id = id ∨ r.codeHash = codeHash) then
    (dbError .uniqueViolation, s')
  else (.ok (), { s' with
    emailCodes := ⟨id, user, email, codeHash, 0, expiresAt, none⟩ :: s.emailCodes })

/-- The newest unused and unexpired code of a user for an address. -/
def activeEmailCode (user : Uuid) (email : String) : Option EmailVerificationCode :=
  s.emailCodes.find? fun c =>
    decide (c.userId = user ∧ c.email = email ∧ c.usedAt = none ∧ s.now < c.expiresAt)

def setEmailCode (id : Uuid) (f : EmailVerificationCode → EmailVerificationCode) : Store :=
  { s with emailCodes := s.emailCodes.map fun c => if c.id = id then f c else c }

/-- The address of a user set verified: its row flipped, or a secondary row
inserted. -/
def verifiedRow (user : Uuid) (email : String) : UserEmail × Store :=
  match s.emails.find? fun e => decide (e.userId = user ∧ e.email = email) with
  | some e => ({ e with isVerified := true }, { s with
      emails := s.emails.map fun e =>
        if e.userId = user ∧ e.email = email then { e with isVerified := true } else e })
  | none => (⟨user, email, false, true⟩, { s with emails := s.emails ++ [⟨user, email, false, true⟩] })

/-- `verify_and_consume_email_code`, one transaction. -/
def verifyAndConsumeEmailCode (user : Uuid) (email codeHash : String) (maxAttempts : ℕ) :
    Except AuthCallError EmailCodeVerification × Store :=
  match s.activeEmailCode user email with
  | none => (.ok .noActiveCode, s)
  | some code =>
    if code.codeHash ≠ codeHash then
      let next := code.attemptCount + 1
      if maxAttempts ≤ next then
        (.ok .attemptsExhausted, s.setEmailCode code.id fun c =>
          { c with attemptCount := next, usedAt := some s.now })
      else (.ok .invalid, s.setEmailCode code.id fun c => { c with attemptCount := next })
    else if s.heldByOther user email then (dbError .uniqueViolation, s)
    else
      let out := (s.setEmailCode code.id fun c => { c with usedAt := some s.now }).verifiedRow
        user email
      (.ok (.success out.1), out.2)

/-! ### Tokens -/

/-- `generate_gitdot_jwt`. -/
def generateGitdotJwt (user : Uuid) (username : String) : GitdotClaims where
  iss := gitdotServerId
  aud := [gitdotServerId]
  sub := Uuid.text user
  iat := s.now
  exp := s.now + accessTokenExpiry
  username := username

end Store

/-! ### Calls -/

/-- The calls of the authentication services. -/
inductive AuthCall where
  | now
  -- `RedisClient`
  | setNxCooldown (key : CooldownKey) (ttl : ℕ)
  | getGrace (oldHash : String)
  | setNxGrace (oldHash : String) (entry : GraceEntry) (ttl : ℕ)
  -- `UserRepository`
  | getByPrimaryEmail (email : String)
  | isEmailTaken (email : String)
  | createUser (email : String) (isVerified : Bool) (provider : AuthProvider)
      (handles : List String)
  | getById (id : Uuid)
  | verifyEmail (id : Uuid)
  | upsertVerifiedEmails (user : Uuid) (emails : List String)
  | markUserAsDeleted (id : Uuid)
  -- `SessionRepository`
  | createAuthCode (user : Uuid) (codeHash : String) (expiresAt : Time)
  | invalidateAuthCodes (user : Uuid)
  | verifyAndConsumeAuthCode (user : Uuid) (codeHash : String) (maxAttempts : ℕ)
  | createSession (user : Uuid) (refreshTokenHash : String) (family : Uuid) (expiresAt : Time)
  | getSessionByRefreshHash (hash : String)
  | revokeSession (id : Uuid)
  | revokeSessionsByFamily (family : Uuid)
  | revokeSessionsByUser (user : Uuid)
  -- `DeviceRepository` and `TokenRepository`
  | createDeviceAuthorization (deviceCodeHash userCodeHash clientId : String) (expiresAt : Time)
  | getDeviceAuthorization (deviceCodeHash : String)
  | expireDeviceAuthorization (id : Uuid)
  | authorizeDevice (userCodeHash : String) (user : Uuid)
  | createToken (principal : Uuid) (clientId tokenHash : String) (tokenType : TokenType)
  -- `EmailVerificationRepository`
  | invalidateCodesForEmail (user : Uuid) (email : String)
  | createCode (user : Uuid) (email codeHash : String) (expiresAt : Time)
  | verifyAndConsumeEmailCode (user : Uuid) (email codeHash : String) (maxAttempts : ℕ)
  -- the token, mail and GitHub clients
  | generateGitdotJwt (user : Uuid) (username : String)
  | verifyOauthState (state : String)
  | exchangeCode (code : String)
  | getUserEmails (token : String)
  | sendEmail (email : String)
  deriving DecidableEq

/-- What a call answers. -/
@[reducible] def AuthCall.Resp : AuthCall → Type
  | .now => Time
  | .setNxCooldown _ _ | .setNxGrace _ _ _ | .isEmailTaken _ | .verifyOauthState _ => Bool
  | .getGrace _ => Option GraceEntry
  | .getByPrimaryEmail _ | .getById _ => Option User
  | .createUser _ _ _ _ => User
  | .verifyAndConsumeAuthCode _ _ _ => AuthCodeVerification
  | .getSessionByRefreshHash _ => Option Session
  | .getDeviceAuthorization _ | .authorizeDevice _ _ => Option DeviceAuthorization
  | .verifyAndConsumeEmailCode _ _ _ _ => EmailCodeVerification
  | .generateGitdotJwt _ _ => GitdotClaims
  | .exchangeCode _ => String
  | .getUserEmails _ => List GitHubEmail
  | .verifyEmail _ | .upsertVerifiedEmails _ _ | .markUserAsDeleted _
  | .createAuthCode _ _ _ | .invalidateAuthCodes _ | .createSession _ _ _ _ | .revokeSession _
  | .revokeSessionsByFamily _ | .revokeSessionsByUser _ | .createDeviceAuthorization _ _ _ _
  | .expireDeviceAuthorization _ | .createToken _ _ _ _ | .invalidateCodesForEmail _ _
  | .createCode _ _ _ _ | .sendEmail _ => Unit

/-- Performs a call. -/
def exec (c : Setup) : (call : AuthCall) → Store → Except AuthCallError call.Resp × Store
  | .now, s => (.ok s.now, s)
  | .setNxCooldown key ttl, s => (.ok (s.setNxCooldown key ttl).1, (s.setNxCooldown key ttl).2)
  | .getGrace oldHash, s => (.ok (s.graceEntry oldHash), s)
  | .setNxGrace oldHash entry ttl, s =>
    (.ok (s.setNxGrace oldHash entry ttl).1, (s.setNxGrace oldHash entry ttl).2)
  | .getByPrimaryEmail email, s => (.ok (s.getByPrimaryEmail email), s)
  | .isEmailTaken email, s => (.ok (s.isEmailTaken email), s)
  | .createUser email isVerified provider handles, s =>
    Store.createUser c email isVerified provider handles s
  | .getById id, s => (.ok (s.getById id), s)
  | .verifyEmail id, s => s.verifyEmail id
  | .upsertVerifiedEmails user emails, s =>
    (.ok (), { s with emails := Store.upsertVerifiedEmails user emails s.emails })
  | .markUserAsDeleted id, s => (.ok (), s.markUserAsDeleted id)
  | .createAuthCode user codeHash expiresAt, s => s.createAuthCode c user codeHash expiresAt
  | .invalidateAuthCodes user, s => (.ok (), s.invalidateAuthCodes user)
  | .verifyAndConsumeAuthCode user codeHash maxAttempts, s =>
    (.ok (s.verifyAndConsumeAuthCode user codeHash maxAttempts).1,
      (s.verifyAndConsumeAuthCode user codeHash maxAttempts).2)
  | .createSession user hash family expiresAt, s => s.createSession c user hash family expiresAt
  | .getSessionByRefreshHash hash, s => (.ok (s.sessions.get? hash), s)
  | .revokeSession id, s => (.ok (), s.revokeSession id)
  | .revokeSessionsByFamily family, s => (.ok (), s.revokeSessionsByFamily family)
  | .revokeSessionsByUser user, s => (.ok (), s.revokeSessionsByUser user)
  | .createDeviceAuthorization deviceCodeHash userCodeHash clientId expiresAt, s =>
    s.createDeviceAuthorization c deviceCodeHash userCodeHash clientId expiresAt
  | .getDeviceAuthorization deviceCodeHash, s => (.ok (s.getDeviceAuthorization deviceCodeHash), s)
  | .expireDeviceAuthorization id, s => (.ok (), s.expireDeviceAuthorization id)
  | .authorizeDevice userCodeHash user, s =>
    (.ok (s.authorizeDevice userCodeHash user).1, (s.authorizeDevice userCodeHash user).2)
  | .createToken principal clientId tokenHash tokenType, s =>
    s.createToken c principal clientId tokenHash tokenType
  | .invalidateCodesForEmail user email, s => (.ok (), s.invalidateCodesForEmail user email)
  | .createCode user email codeHash expiresAt, s => s.createCode c user email codeHash expiresAt
  | .verifyAndConsumeEmailCode user email codeHash maxAttempts, s =>
    s.verifyAndConsumeEmailCode user email codeHash maxAttempts
  | .generateGitdotJwt user username, s => (.ok (s.generateGitdotJwt user username), s)
  | .verifyOauthState state, s => (.ok (c.verifyOauthState s.now state), s)
  | .exchangeCode code, s => (c.exchangeCode code, s)
  | .getUserEmails token, s => (c.getUserEmails token, s)
  | .sendEmail _, s => (.ok (), s)

/-- The error of a call that fails from outside. -/
def callFault : AuthCall → AuthCallError
  | .setNxCooldown _ _ | .getGrace _ | .setNxGrace _ _ _ => .cache
  | .generateGitdotJwt _ _ => .token
  | .exchangeCode _ | .getUserEmails _ => .gitHub
  | .sendEmail _ => .email
  | _ => .database .connection

/-- What answers the calls. -/
def authCalls (c : Setup) : Handler AuthCall AuthCall.Resp AuthCallError Store where
  exec := exec c
  fault := callFault

@[simp] theorem authCalls_exec (c : Setup) : (authCalls c).exec = exec c := rfl

end Auth
end Gitdot
