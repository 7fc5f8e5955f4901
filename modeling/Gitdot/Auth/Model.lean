/-
# Logins, devices and addresses

The rows of `auth.sessions`, `auth.auth_codes`, `auth.device_authorizations`,
`auth.tokens` and `auth.email_verification_codes`, the columns of
`core.users` and `core.user_emails` that these services read, the requests of
the session, device and account services, and their errors. Times are in
seconds. User agents, addresses of clients, avatars and the texts of the mails
are left out: nothing reads them.

What a service draws itself (a code, a refresh token, a family, an access
token, the handles of a new user) comes with the request as its `Draws`.

Key definitions: `Session`, `GraceEntry`, `AuthCode`, `DeviceAuthorization`,
`Request`, `Op`, `AuthError`.
-/
import Gitdot.Server.Comments

namespace Gitdot
namespace Auth

open Lib

/-- Seconds since the epoch. -/
abbrev Time := ℕ

/-! ### Rows -/

/-- `AuthProvider`. -/
inductive AuthProvider where
  | email
  | gitHub
  deriving DecidableEq

/-- A row of `core.users`. -/
structure Account where
  id : Uuid
  name : String
  provider : AuthProvider
  deletedAt : Option Time
  deriving DecidableEq

instance : Keyed Account Uuid := ⟨Account.id⟩

@[simp] theorem key_account (a : Account) : Keyed.key a = a.id := rfl

/-- A row of `core.user_emails`. -/
structure UserEmail where
  userId : Uuid
  email : String
  isPrimary : Bool
  isVerified : Bool
  deriving DecidableEq

/-- A user as `USER_PROJECTION_QUERY` returns it, the addresses aggregated. -/
structure User where
  id : Uuid
  name : String
  provider : AuthProvider
  deletedAt : Option Time
  emails : List UserEmail
  deriving DecidableEq

/-- `primary_email`. -/
def User.primaryEmail (u : User) : Option UserEmail := u.emails.find? UserEmail.isPrimary

/-- A row of `auth.sessions`, keyed by its unique column `refresh_token_hash`. -/
structure Session where
  id : Uuid
  userId : Uuid
  refreshTokenHash : String
  refreshTokenFamily : Uuid
  expiresAt : Time
  revokedAt : Option Time
  deriving DecidableEq

instance : Keyed Session String := ⟨Session.refreshTokenHash⟩

@[simp] theorem key_session (s : Session) : Keyed.key s = s.refreshTokenHash := rfl

/-- The entry of the grace cache for a rotated token: what replaces it. -/
structure GraceEntry where
  refreshToken : String
  expiresAt : Time
  deriving DecidableEq

/-- A row of `auth.auth_codes`. -/
structure AuthCode where
  id : Uuid
  userId : Uuid
  codeHash : String
  attemptCount : ℕ
  expiresAt : Time
  usedAt : Option Time
  deriving DecidableEq

/-- `AuthCodeVerification`. -/
inductive AuthCodeVerification where
  | success
  | invalid
  | attemptsExhausted
  | noActiveCode
  deriving DecidableEq

/-- `DeviceAuthorizationStatus`. -/
inductive DeviceAuthorizationStatus where
  | pending
  | authorized
  | expired
  deriving DecidableEq

/-- A row of `auth.device_authorizations`. -/
structure DeviceAuthorization where
  id : Uuid
  deviceCodeHash : String
  userCodeHash : String
  clientId : String
  userId : Option Uuid
  status : DeviceAuthorizationStatus
  expiresAt : Time
  deriving DecidableEq

/-- `TokenType`. -/
inductive TokenType where
  | personal
  | runner
  deriving DecidableEq

/-- A row of `auth.tokens`. -/
structure AccessToken where
  id : Uuid
  principalId : Uuid
  clientId : String
  tokenHash : String
  tokenType : TokenType
  deriving DecidableEq

/-- A row of `auth.email_verification_codes`. -/
structure EmailVerificationCode where
  id : Uuid
  userId : Uuid
  email : String
  codeHash : String
  attemptCount : ℕ
  expiresAt : Time
  usedAt : Option Time
  deriving DecidableEq

/-- `EmailCodeVerification`. -/
inductive EmailCodeVerification where
  | success (email : UserEmail)
  | invalid
  | attemptsExhausted
  | noActiveCode
  deriving DecidableEq

/-! ### Tokens -/

/-- `GITDOT_SERVER_ID`. -/
def gitdotServerId : String := "gitdot-server"

/-- `S2_SERVER_ID`. -/
def s2ServerId : String := "s2-server"

/-- `JwtClaims`. -/
structure JwtClaims where
  iss : String
  aud : List String
  sub : String
  iat : Time
  exp : Time
  deriving DecidableEq

/-- `GitdotClaims`: those of a user's access token. -/
structure GitdotClaims extends JwtClaims where
  username : String
  deriving DecidableEq

/-- An address as GitHub reports it. -/
structure GitHubEmail where
  email : String
  primary : Bool
  verified : Bool
  deriving DecidableEq

/-! ### Requests -/

structure SendAuthEmailRequest where
  email : String
  deriving DecidableEq

structure VerifyAuthCodeRequest where
  email : String
  code : String
  deriving DecidableEq

structure RefreshSessionRequest where
  refreshToken : String
  deriving DecidableEq

structure LogoutRequest where
  refreshToken : String
  deriving DecidableEq

structure ExchangeGitHubCodeRequest where
  code : String
  state : String
  deriving DecidableEq

structure DeviceCodeRequest where
  clientId : String
  verificationUrl : String
  deriving DecidableEq

structure PollTokenRequest where
  deviceCode : String
  clientId : String
  deriving DecidableEq

structure AuthorizeDeviceRequest where
  userCode : String
  userId : Uuid
  deriving DecidableEq

structure DeleteAccountRequest where
  userId : Uuid
  deriving DecidableEq

structure AddUserEmailRequest where
  userId : Uuid
  email : String
  deriving DecidableEq

structure VerifyUserEmailRequest where
  userId : Uuid
  email : String
  code : String
  deriving DecidableEq

/-- What the services are asked. -/
inductive Request where
  | sendAuthEmail (request : SendAuthEmailRequest)
  | verifyAuthCode (request : VerifyAuthCodeRequest)
  | refreshSession (request : RefreshSessionRequest)
  | logout (request : LogoutRequest)
  | exchangeGithubCode (request : ExchangeGitHubCodeRequest)
  | requestDeviceCode (request : DeviceCodeRequest)
  | pollToken (request : PollTokenRequest)
  | authorizeDevice (request : AuthorizeDeviceRequest)
  | deleteAccount (request : DeleteAccountRequest)
  | addEmail (request : AddUserEmailRequest)
  | verifyEmail (request : VerifyUserEmailRequest)
  deriving DecidableEq

/-- What a service draws while it serves a request: a high-entropy code, a
readable code, a family, an access token, and the handles `create` tries. -/
structure Draws where
  code : String
  readable : String
  family : Uuid
  accessToken : String
  handles : List String
  deriving DecidableEq

/-- A request with the draws it is served with. -/
structure Op where
  request : Request
  draws : Draws
  deriving DecidableEq

/-! ### Responses and errors -/

structure AuthTokensResponse where
  accessToken : GitdotClaims
  refreshToken : String
  accessTokenExpiresIn : ℕ
  refreshTokenExpiresIn : ℕ
  isNew : Bool
  deriving DecidableEq

structure DeviceCodeResponse where
  deviceCode : String
  userCode : String
  verificationUrl : String
  expiresIn : ℕ
  interval : ℕ
  deriving DecidableEq

structure TokenResponse where
  accessToken : String
  userName : String
  userEmail : String
  deriving DecidableEq

/-- What a request returns. -/
inductive Reply where
  | done
  | tokens (response : AuthTokensResponse)
  | deviceCode (response : DeviceCodeResponse)
  | token (response : TokenResponse)
  | email (email : UserEmail)
  deriving DecidableEq

/-- The errors of the calls. -/
inductive AuthCallError where
  | database (e : DatabaseError)
  | cache
  | email
  | gitHub
  | token
  deriving DecidableEq

/-- `SessionError`, `DeviceError` and `AccountError`. -/
inductive AuthError where
  | input (field reason : String)
  | notFound (entity id : String)
  | conflict (entity id : String)
  | unauthorized
  | invalidCode
  | tooManyAttempts
  | tokenExpired (what : String)
  | tokenPending (what : String)
  | tokenRevoked (what : String)
  | gitHub (message : String)
  | call (e : AuthCallError)
  deriving DecidableEq

/-- `or_not_found`. -/
def orMissing {α : Type} (a : Option α) (entity id : String) : Except AuthError α :=
  match a with
  | some a => .ok a
  | none => .error (.notFound entity id)

/-! ### Durations -/

/-- `GRACE_WINDOW`. -/
def graceWindow : ℕ := 10 * 60

/-- `MAX_AUTH_CODE_ATTEMPTS`. -/
def maxAuthCodeAttempts : ℕ := 5

/-- `AUTH_CODE_SEND_COOLDOWN`. -/
def authCodeSendCooldown : ℕ := 30

/-- `MAX_EMAIL_CODE_ATTEMPTS`. -/
def maxEmailCodeAttempts : ℕ := 5

/-- `EMAIL_VERIFY_SEND_COOLDOWN`. -/
def emailVerifySendCooldown : ℕ := 30

/-- `get_auth_code_expiry_in_seconds`. -/
def authCodeExpiry : ℕ := 10 * 60

/-- `get_access_token_expiry_in_seconds`. -/
def accessTokenExpiry : ℕ := 3600

/-- `get_refresh_token_expiry_in_seconds`. -/
def refreshTokenExpiry : ℕ := 30 * 24 * 3600

/-- `get_device_code_expiry_in_seconds`. -/
def deviceCodeExpiry : ℕ := 10 * 60

/-- `get_polling_interval_in_seconds`. -/
def pollingInterval : ℕ := 1

end Auth
end Gitdot
