/-
# The authentication services

The methods of `SessionServiceImpl`, `DeviceServiceImpl` and
`AccountServiceImpl` as programs of their calls, and the system they form:
requests that arrive in any order, their calls interleaved, and a clock that
runs in between (`AuthPool`, `authNext`). `Utc::now()` is a call of its own,
so time may pass at any point of a method.

Key definitions: `sendAuthEmail`, `verifyAuthCode`, `refreshSession`,
`logout`, `exchangeGithubCode`, `pollToken`, `authorizeDevice`,
`deleteAccount`, `addEmail`, `verifyEmail`, `program`, `authNext`.
-/
import Gitdot.Lib.Pool
import Gitdot.Auth.Store

namespace Gitdot
namespace Auth

open Lib Prog

/-- Programs over the calls of the authentication services. -/
abbrev AuthProg := Prog AuthCall AuthCall.Resp AuthCallError AuthError

/-- One call under `?`. -/
def askAuth (call : AuthCall) : AuthProg call.Resp := Prog.perform AuthError.call call

variable (c : Setup) (draws : Draws)

/-! ### Sessions -/

/-- The end of `send_auth_email`: the code is replaced and mailed. -/
def mailAuthCode (email : String) (user : User) : AuthProg Reply := do
  let now ← askAuth .now
  askAuth (.invalidateAuthCodes user.id)
  askAuth (.createAuthCode user.id (c.hashString draws.readable) (now + authCodeExpiry))
  askAuth (.sendEmail email)
  return .done

/-- `send_auth_email` behind its rate limit. -/
def sendAuthCode (email : String) : AuthProg Reply := do
  let user ← askAuth (.getByPrimaryEmail email)
  match user with
  | some user => mailAuthCode c draws email user
  | none => do
    let taken ← askAuth (.isEmailTaken email)
    if taken then return .done
    else do
      let user ← askAuth (.createUser email false .email (draws.handles.take 3))
      mailAuthCode c draws email user

/-- `send_auth_email`: a rate limit that cannot be checked lets the send pass. -/
def sendAuthEmail (request : SendAuthEmailRequest) : AuthProg Reply :=
  .call (.setNxCooldown (.authCodeSend (c.hashString request.email)) authCodeSendCooldown) fun
    | .ok false => .fail .tooManyAttempts
    | .ok true => sendAuthCode c draws request.email
    | .error _ => sendAuthCode c draws request.email

def verifyAuthCode (request : VerifyAuthCodeRequest) : AuthProg Reply := do
  let user ← askAuth (.getByPrimaryEmail request.email)
  match user with
  | none => .fail .unauthorized
  | some user =>
    if user.deletedAt.isSome then .fail .unauthorized
    else do
      let verification ← askAuth
        (.verifyAndConsumeAuthCode user.id (c.hashString request.code) maxAuthCodeAttempts)
      match verification with
      | .attemptsExhausted => .fail .tooManyAttempts
      | .invalid => .fail .unauthorized
      | .noActiveCode => .fail .unauthorized
      | .success => do
        askAuth (.verifyEmail user.id)
        let now ← askAuth .now
        askAuth (.createSession user.id (c.hashString draws.code) draws.family
          (now + refreshTokenExpiry))
        let accessToken ← askAuth (.generateGitdotJwt user.id user.name)
        return .tokens ⟨accessToken, draws.code, accessTokenExpiry, refreshTokenExpiry,
          !user.primaryEmail.any UserEmail.isVerified⟩

/-- What `refresh_session` does for a token already rotated, and for one whose
claim it has lost. -/
def replaySession (tokenHash : String) (session : Session) (accessToken : GitdotClaims) :
    AuthProg Reply := do
  let grace ← askAuth (.getGrace tokenHash)
  match grace with
  | some grace => do
    let now ← askAuth .now
    return .tokens ⟨accessToken, grace.refreshToken, accessTokenExpiry, grace.expiresAt - now,
      false⟩
  | none => do
    askAuth (.revokeSessionsByFamily session.refreshTokenFamily)
    .fail (.tokenRevoked "session")

/-- `refresh_session` once it has won the claim. -/
def persistRotation (session : Session) (accessToken : GitdotClaims) (refreshExpiry : Time) :
    AuthProg Reply := do
  askAuth (.revokeSession session.id)
  askAuth (.createSession session.userId (c.hashString draws.code) session.refreshTokenFamily
    refreshExpiry)
  return .tokens ⟨accessToken, draws.code, accessTokenExpiry, refreshTokenExpiry, false⟩

/-- `refresh_session` for a token that is not revoked. -/
def rotateSession (tokenHash : String) (session : Session) (accessToken : GitdotClaims) :
    AuthProg Reply := do
  let now ← askAuth .now
  let claimed ← askAuth
    (.setNxGrace tokenHash ⟨draws.code, now + refreshTokenExpiry⟩ graceWindow)
  if claimed then persistRotation c draws session accessToken (now + refreshTokenExpiry)
  else replaySession tokenHash session accessToken

def refreshSession (request : RefreshSessionRequest) : AuthProg Reply := do
  let tokenHash := c.hashString request.refreshToken
  let session ← askAuth (.getSessionByRefreshHash tokenHash)
  let session ← Prog.liftExcept (orMissing session "session" tokenHash)
  let now ← askAuth .now
  if session.expiresAt < now then .fail (.tokenExpired "session")
  else do
    let user ← askAuth (.getById session.userId)
    let user ← Prog.liftExcept (orMissing user "user" (Uuid.text session.userId))
    if user.deletedAt.isSome then .fail .unauthorized
    else do
      let accessToken ← askAuth (.generateGitdotJwt user.id user.name)
      if session.revokedAt.isSome then replaySession tokenHash session accessToken
      else rotateSession c draws tokenHash session accessToken

def logout (request : LogoutRequest) : AuthProg Reply := do
  let tokenHash := c.hashString request.refreshToken
  let session ← askAuth (.getSessionByRefreshHash tokenHash)
  let session ← Prog.liftExcept (orMissing session "session" tokenHash)
  askAuth (.revokeSession session.id)
  return .done

/-- The end of `exchange_github_code`: a new session of the user. -/
def startSession (user : User) (isNew : Bool) : AuthProg Reply := do
  let accessToken ← askAuth (.generateGitdotJwt user.id user.name)
  let now ← askAuth .now
  askAuth (.createSession user.id (c.hashString draws.code) draws.family
    (now + refreshTokenExpiry))
  return .tokens ⟨accessToken, draws.code, accessTokenExpiry, refreshTokenExpiry, isNew⟩

/-- `exchange_github_code` for an address without an account. -/
def signUpWithGithub (githubEmails : List GitHubEmail) (primaryEmail : String) :
    AuthProg Reply := do
  let taken ← askAuth (.isEmailTaken primaryEmail)
  if taken then .fail .unauthorized
  else do
    let user ← askAuth (.createUser primaryEmail true .gitHub (draws.handles.take 3))
    let extras := (githubEmails.filter fun e => e.verified && decide (e.email ≠ primaryEmail)).map
      GitHubEmail.email
    if extras.isEmpty then startSession c draws user true
    else do
      askAuth (.upsertVerifiedEmails user.id extras)
      startSession c draws user true

def exchangeGithubCode (request : ExchangeGitHubCodeRequest) : AuthProg Reply := do
  let valid ← askAuth (.verifyOauthState request.state)
  if !valid then .fail .unauthorized
  else do
    let githubToken ← askAuth (.exchangeCode request.code)
    let githubEmails ← askAuth (.getUserEmails githubToken)
    match githubEmails.find? fun e => e.primary && e.verified with
    | none => .fail (.gitHub "No verified primary email found")
    | some primary => do
      let user ← askAuth (.getByPrimaryEmail primary.email)
      match user with
      | some user =>
        if user.deletedAt.isSome then .fail .unauthorized
        else startSession c draws user false
      | none => signUpWithGithub c draws githubEmails primary.email

/-! ### Devices -/

def requestDeviceCode (request : DeviceCodeRequest) : AuthProg Reply := do
  let now ← askAuth .now
  askAuth (.createDeviceAuthorization (c.hashString draws.code) (c.hashString draws.readable)
    request.clientId (now + deviceCodeExpiry))
  return .deviceCode ⟨draws.code, draws.readable, request.verificationUrl, deviceCodeExpiry,
    pollingInterval⟩

/-- `poll_token` for a device that has been authorized. -/
def issueDeviceToken (device : DeviceAuthorization) : AuthProg Reply := do
  let userId ← Prog.liftExcept (match device.userId with
    | some userId => .ok userId
    | none => .error (.input "user_id" "missing"))
  let user ← askAuth (.getById userId)
  let user ← Prog.liftExcept (orMissing user "user" (Uuid.text userId))
  let email ← Prog.liftExcept (orMissing user.primaryEmail "user_email" (Uuid.text userId))
  askAuth (.createToken userId device.clientId (c.hashString draws.accessToken) .personal)
  askAuth (.expireDeviceAuthorization device.id)
  return .token ⟨draws.accessToken, user.name, email.email⟩

def pollToken (request : PollTokenRequest) : AuthProg Reply := do
  let deviceCodeHash := c.hashString request.deviceCode
  let device ← askAuth (.getDeviceAuthorization deviceCodeHash)
  let device ← Prog.liftExcept (orMissing device "device_code" deviceCodeHash)
  let now ← askAuth .now
  if device.expiresAt < now ∧ device.status = .pending then do
    askAuth (.expireDeviceAuthorization device.id)
    .fail (.tokenExpired "device_code")
  else
    match device.status with
    | .pending => .fail (.tokenPending "device_code")
    | .expired => .fail (.tokenExpired "device_code")
    | .authorized => issueDeviceToken c draws device

def authorizeDevice (request : AuthorizeDeviceRequest) : AuthProg Reply := do
  let userCodeHash := c.hashString request.userCode
  let device ← askAuth (.authorizeDevice userCodeHash request.userId)
  let _ ← Prog.liftExcept (orMissing device "user_code" userCodeHash)
  return .done

/-! ### Accounts -/

def deleteAccount (request : DeleteAccountRequest) : AuthProg Reply := do
  askAuth (.markUserAsDeleted request.userId)
  askAuth (.revokeSessionsByUser request.userId)
  return .done

/-- `issue_and_send_code` behind its rate limit. -/
def mailEmailCode (user : Uuid) (email : String) : AuthProg Reply := do
  askAuth (.invalidateCodesForEmail user email)
  let now ← askAuth .now
  askAuth (.createCode user email (c.hashString draws.readable) (now + authCodeExpiry))
  askAuth (.sendEmail email)
  return .done

def issueAndSendCode (user : Uuid) (email : String) : AuthProg Reply :=
  .call (.setNxCooldown (.emailVerifySend (c.hashString s!"{Uuid.text user}:{email}"))
      emailVerifySendCooldown) fun
    | .ok false => .fail .tooManyAttempts
    | .ok true => mailEmailCode c draws user email
    | .error _ => mailEmailCode c draws user email

def addEmail (request : AddUserEmailRequest) : AuthProg Reply := do
  let taken ← askAuth (.isEmailTaken request.email)
  if taken then .fail (.conflict "email" request.email)
  else issueAndSendCode c draws request.userId request.email

def verifyEmail (request : VerifyUserEmailRequest) : AuthProg Reply :=
  .call (.verifyAndConsumeEmailCode request.userId request.email (c.hashString request.code)
      maxEmailCodeAttempts) fun
    | .ok (.success email) => .ret (.email email)
    | .ok .attemptsExhausted => .fail .tooManyAttempts
    | .ok .invalid => .fail .invalidCode
    | .ok .noActiveCode => .fail .invalidCode
    | .error (.database .uniqueViolation) => .fail (.conflict "email" request.email)
    | .error e => .fail (.call e)

/-! ### The system -/

/-- The program that serves a request. -/
def program (op : Op) : AuthProg Reply :=
  match op.request with
  | .sendAuthEmail request => sendAuthEmail c op.draws request
  | .verifyAuthCode request => verifyAuthCode c op.draws request
  | .refreshSession request => refreshSession c op.draws request
  | .logout request => logout c request
  | .exchangeGithubCode request => exchangeGithubCode c op.draws request
  | .requestDeviceCode request => requestDeviceCode c op.draws request
  | .pollToken request => pollToken c op.draws request
  | .authorizeDevice request => authorizeDevice c request
  | .deleteAccount request => deleteAccount request
  | .addEmail request => addEmail c op.draws request
  | .verifyEmail request => verifyEmail c request

/-- The store some seconds later. -/
def wait (seconds : ℕ) (s : Store) : Store := { s with now := s.now + seconds }

/-- The store with its log. -/
abbrev AuthSys := Sys Op AuthCall AuthCall.Resp AuthCallError Store

/-- The services at work. -/
abbrev AuthPool := Pool Op AuthCall AuthCall.Resp AuthCallError AuthError Reply Store

/-- A request, a call, or some seconds that pass. -/
abbrev AuthMove := Move Op ℕ

/-- The services after a move. -/
def authNext (m : AuthMove) (P : AuthPool) : AuthPool :=
  Pool.next (authCalls c) (program c) wait m P

/-- Before the first request. -/
def Idle (P : AuthPool) : Prop := ∃ now, P = ⟨⟨.initial now, []⟩, []⟩

end Auth
end Gitdot
