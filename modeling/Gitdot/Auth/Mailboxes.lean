/-
# Stored addresses

An address that a user types is parsed before a service sees it: trimmed, set in
lower case, and checked. What parsing returns is a fixed point of it
(`canonical_of_parse`). GitHub's addresses come in two ways, at a sign-in and at the
installation of the app, and are stored as GitHub writes them.

So the stored addresses are canonical as long as the verified addresses that GitHub
reports are (`addresses_canonical`), and two that differ only in case are then one.
The unique indexes compare the text alone.

Key definitions: `EmailParser`, `EmailParser.parse`, `Canonical`, `MailCall`,
`createGithubInstallation`, `mailProgram`, `mailNext`, `ReportsCanonical`,
`CanonicalAddresses`.
Key theorems: `canonical_of_parse`, `emails_exec`, `mail_obeys`,
`addresses_canonical`.
-/
import Gitdot.Auth.Addresses
import Gitdot.Ci.Config
import Gitdot.Lib.Casing
import Mathlib.Tactic.IntervalCases

namespace Gitdot
namespace Auth

open Lib Prog

/-! ### Parsing -/

/-- `Email::parse`: the mapping to lower case, and `EmailAddress::is_valid`. -/
structure EmailParser where
  table : CaseTable Ci.isWhitespace
  isValid : String → Bool

namespace EmailParser

variable (E : EmailParser)

/-- The text in lower case. -/
def lower (text : String) : String := String.ofList (E.table.toLowercase text.toList)

/-- `trim().to_lowercase()`. -/
def sanitize (text : String) : String :=
  String.ofList (E.table.toLowercase (Ci.trim text.toList))

/-- `parse`. -/
def parse (text : String) : Except AuthError String :=
  if E.isValid (E.sanitize text) then .ok (E.sanitize text)
  else .error (.input "email" "must be a valid email address")

/-- A fixed point of `parse`. -/
def Canonical (text : String) : Prop := E.parse text = .ok text

instance (text : String) : Decidable (E.Canonical text) :=
  inferInstanceAs (Decidable (_ = _))

variable {E} {text email : String}

theorem sanitize_sanitize : E.sanitize (E.sanitize text) = E.sanitize text := by
  have htrim : Ci.trim (E.table.toLowercase (Ci.trim text.toList)) =
      E.table.toLowercase (Ci.trim text.toList) := (trimmed_trim.toLowercase E.table).trim
  unfold sanitize
  rw [String.toList_ofList, htrim, CaseTable.toLowercase_toLowercase]

theorem parse_eq_ok : E.parse text = .ok email ↔
    E.isValid (E.sanitize text) = true ∧ E.sanitize text = email := by
  unfold parse
  split_ifs with h
  · exact ⟨fun heq => ⟨h, Except.ok.inj heq⟩, fun heq => congrArg Except.ok heq.2⟩
  · exact ⟨nofun, fun heq => absurd heq.1 h⟩

/-- **Fixed points.** What parsing returns, it returns again. -/
theorem canonical_of_parse (h : E.parse text = .ok email) : E.Canonical email := by
  obtain ⟨hvalid, rfl⟩ := parse_eq_ok.mp h
  exact parse_eq_ok.mpr ⟨by rw [sanitize_sanitize]; exact hvalid, sanitize_sanitize⟩

/-- A canonical address is in lower case. -/
theorem Canonical.lower (h : E.Canonical email) : E.lower email = email := by
  obtain ⟨-, hsanitize⟩ := parse_eq_ok.mp h
  have hlower : E.table.toLowercase email.toList = email.toList := by
    rw [← hsanitize]
    unfold sanitize
    rw [String.toList_ofList, CaseTable.toLowercase_toLowercase]
  rw [EmailParser.lower, hlower, String.ofList_toList]

end EmailParser

/-! ### Calls -/

/-- `GitHubInstallationType`. -/
inductive GitHubInstallationType where
  | user
  | organization
  deriving DecidableEq

/-- A row of `migration.github_installations`. -/
structure GitHubInstallation where
  installationId : ℤ
  ownerId : Uuid
  type : GitHubInstallationType
  githubLogin : String
  deriving DecidableEq

/-- An installation as GitHub reports it. -/
structure Installation where
  targetType : Option String
  login : String
  deriving DecidableEq

structure GitHubMembership where
  state : String
  role : String
  deriving DecidableEq

/-- What the services are set up with, and what GitHub answers about its app: whom
an install state is for at a time, who a token is of, an installation, and a
membership. -/
structure MailSetup where
  auth : Setup
  parser : EmailParser
  verifyInstallState : Time → String → Except AuthCallError Uuid
  getUser : String → Except AuthCallError String
  getInstallation : ℕ → Except AuthCallError Installation
  getUserMembership : String → String → String → Except AuthCallError GitHubMembership

structure MailStore where
  auth : Store
  installations : List GitHubInstallation

/-- The calls of the authentication services, and those of the installation. -/
inductive MailCall where
  | auth (inner : AuthCall)
  | verifyInstallState (state : String)
  | getUser (token : String)
  | getInstallation (installationId : ℕ)
  | getUserMembership (orgName userName token : String)
  | createInstallation (installation : GitHubInstallation)
  deriving DecidableEq

@[reducible] def MailCall.Resp : MailCall → Type
  | .auth inner => inner.Resp
  | .verifyInstallState _ => Uuid
  | .getUser _ => String
  | .getInstallation _ => Installation
  | .getUserMembership .. => GitHubMembership
  | .createInstallation _ => Unit

/-- `create` of the installations: the unique index is on the installation's id. -/
def MailStore.createInstallation (s : MailStore) (installation : GitHubInstallation) :
    Except AuthCallError Unit × MailStore :=
  if s.installations.any fun i => decide (i.installationId = installation.installationId) then
    (.error (.database .uniqueViolation), s)
  else if (s.auth.users.get? installation.ownerId).isNone then
    (.error (.database .foreignKeyViolation), s)
  else (.ok (), { s with installations := s.installations ++ [installation] })

def mailExec (c : MailSetup) : (call : MailCall) → MailStore →
    Except AuthCallError call.Resp × MailStore
  | .auth inner, s => ((exec c.auth inner s.auth).1, { s with auth := (exec c.auth inner s.auth).2 })
  | .verifyInstallState state, s => (c.verifyInstallState s.auth.now state, s)
  | .getUser token, s => (c.getUser token, s)
  | .getInstallation installationId, s => (c.getInstallation installationId, s)
  | .getUserMembership orgName userName token, s => (c.getUserMembership orgName userName token, s)
  | .createInstallation installation, s => s.createInstallation installation

def mailHandler (c : MailSetup) : Handler MailCall MailCall.Resp AuthCallError MailStore where
  exec := mailExec c
  fault
    | .auth inner => callFault inner
    | .createInstallation _ => .database .connection
    | _ => .gitHub

abbrev MailProg := Prog MailCall MailCall.Resp AuthCallError AuthError

abbrev MailEvent := Prog.Event MailCall MailCall.Resp AuthCallError

def askMail (call : MailCall) : MailProg call.Resp := Prog.perform AuthError.call call

/-! ### Requests -/

/-- `CreateGitHubInstallationRequest`. -/
structure CreateGitHubInstallationRequest where
  installationId : ℤ
  ownerId : Uuid
  code : String
  state : String
  deriving DecidableEq

/-- What the services are asked, as it was typed. -/
inductive MailRequest where
  | sendAuthEmail (email : String)
  | verifyAuthCode (email code : String)
  | exchangeGithubCode (request : ExchangeGitHubCodeRequest)
  | createGithubInstallation (request : CreateGitHubInstallationRequest)
  | addEmail (userId : Uuid) (email : String)
  | verifyEmail (userId : Uuid) (email code : String)
  deriving DecidableEq

structure MailOp where
  request : MailRequest
  draws : Draws
  deriving DecidableEq

variable (c : MailSetup)

/-- The checks that an installation is the caller's. -/
def verifyOwnership (type : GitHubInstallationType) (installation : Installation)
    (githubUserName token : String) : MailProg Unit :=
  match type with
  | .user =>
    if githubUserName ≠ installation.login then
      .fail (.gitHub "Unauthorized for this GitHub installation")
    else pure ()
  | .organization =>
    askMail (.getUserMembership installation.login githubUserName token) >>= fun membership =>
      if membership.state ≠ "active" ∨ membership.role ≠ "admin" then
        .fail (.gitHub "Unauthorized for this GitHub installation")
      else pure ()

/-- `create_github_installation` once the caller has been checked. -/
def recordInstallation (request : CreateGitHubInstallationRequest) (type : GitHubInstallationType)
    (login token : String) : MailProg Reply :=
  askMail (.auth (.getUserEmails token)) >>= fun githubEmails =>
    let verifiedEmails := (githubEmails.filter GitHubEmail.verified).map GitHubEmail.email
    let create : MailProg Reply :=
      askMail (.createInstallation ⟨request.installationId, request.ownerId, type, login⟩) >>=
        fun _ => pure .done
    if verifiedEmails.isEmpty then create
    else askMail (.auth (.upsertVerifiedEmails request.ownerId verifiedEmails)) >>= fun _ => create

/-- `create_github_installation`. -/
def createGithubInstallation (request : CreateGitHubInstallationRequest) : MailProg Reply :=
  askMail (.verifyInstallState request.state) >>= fun userId =>
    if userId ≠ request.ownerId then .fail (.gitHub "Invalid GitHub install state")
    else askMail (.auth (.exchangeCode request.code)) >>= fun token =>
      askMail (.getUser token) >>= fun githubUserName =>
        askMail (.getInstallation (request.installationId % 2 ^ 64).toNat) >>= fun installation =>
          let type := if installation.targetType = some "Organization" then
            GitHubInstallationType.organization else .user
          verifyOwnership type installation githubUserName token >>= fun _ =>
            recordInstallation request type installation.login token

/-- A service that is called with the parsed address. -/
def parsed (text : String) (service : String → AuthProg Reply) : MailProg Reply :=
  match c.parser.parse text with
  | .error e => .fail e
  | .ok email => (service email).mapCalls .auth

/-- The program that serves a request. -/
def mailProgram (op : MailOp) : MailProg Reply :=
  match op.request with
  | .sendAuthEmail email => parsed c email fun email => sendAuthEmail c.auth op.draws ⟨email⟩
  | .verifyAuthCode email code =>
    parsed c email fun email => verifyAuthCode c.auth op.draws ⟨email, code⟩
  | .exchangeGithubCode request => (exchangeGithubCode c.auth op.draws request).mapCalls .auth
  | .createGithubInstallation request => createGithubInstallation request
  | .addEmail userId email => parsed c email fun email => addEmail c.auth op.draws ⟨userId, email⟩
  | .verifyEmail userId email code =>
    parsed c email fun email => verifyEmail c.auth ⟨userId, email, code⟩

abbrev MailPool := Pool MailOp MailCall MailCall.Resp AuthCallError AuthError Reply MailStore

abbrev MailMove := Move MailOp ℕ

/-- The store some seconds later. -/
def mailWait (seconds : ℕ) (s : MailStore) : MailStore := { s with auth := wait seconds s.auth }

def mailNext : MailMove → MailPool → MailPool :=
  Pool.next (mailHandler c) (mailProgram c) mailWait

/-- Before the first request. -/
def MailIdle (P : MailPool) : Prop := ∃ now, P = ⟨⟨⟨.initial now, []⟩, []⟩, []⟩

/-! ### The addresses -/

/-- The addresses that GitHub answers a call with. -/
def MailSetup.reports : MailCall → List GitHubEmail
  | .auth (.getUserEmails token) => (c.auth.getUserEmails token).toOption.getD []
  | _ => []

/-- The verified addresses that GitHub answers with are canonical. -/
def ReportsCanonical : MailPool → MailMove → Prop :=
  OnCalls fun _ _ call => ∀ e ∈ c.reports call, e.verified = true → c.parser.Canonical e.email

instance (P : MailPool) (m : MailMove) : Decidable (ReportsCanonical c P m) :=
  inferInstanceAs (Decidable (OnCalls _ P m))

/-- Every stored address is a fixed point of `parse`, and users have no two that
differ only in case. -/
structure CanonicalAddresses (E : EmailParser) (s : Store) : Prop where
  canonical : ∀ e ∈ s.emails, E.parse e.email = .ok e.email
  apart : ∀ e ∈ s.emails, ∀ r ∈ s.emails, e.userId ≠ r.userId → e.email ≠ r.email →
    E.lower e.email ≠ E.lower r.email

variable {c} {s s' : Store}

/-- The addresses that a call may store. -/
def AuthCall.stored : AuthCall → List String
  | .createUser email _ _ _ => [email]
  | .upsertVerifiedEmails _ emails => emails
  | .verifyAndConsumeEmailCode _ email _ _ => [email]
  | _ => []

theorem email_of_mem_upsert {user : Uuid} {e : UserEmail} : ∀ {emails : List String}
    {rows : List UserEmail}, e ∈ Store.upsertVerifiedEmails user emails rows →
      e ∈ rows ∨ e.email ∈ emails
  | [], _, he => .inl he
  | email :: emails, rows, he => by
    unfold Store.upsertVerifiedEmails at he
    split_ifs at he
    · exact (email_of_mem_upsert he).imp_right (List.mem_cons_of_mem _)
    · rcases email_of_mem_upsert he with he | he
      · rcases List.mem_append.mp he with he | he
        · exact .inl he
        · rw [List.mem_singleton.mp he]
          exact .inr List.mem_cons_self
      · exact .inr (List.mem_cons_of_mem _ he)

/-- Rows that a statement sets verified keep their addresses. -/
theorem email_of_mem_map {p : UserEmail → Prop} [DecidablePred p] {rows : List UserEmail}
    {e : UserEmail} (he : e ∈ rows.map fun r => if p r then { r with isVerified := true } else r) :
    ∃ r ∈ rows, r.email = e.email := by
  obtain ⟨r, hr, rfl⟩ := List.mem_map.mp he
  exact ⟨r, hr, by split_ifs <;> rfl⟩

/-- The addresses after a call: those there were, and those it stores. -/
theorem emails_exec {call : AuthCall} {c : Setup} {e : UserEmail}
    (he : e ∈ (exec c call s).2.emails) :
    (∃ r ∈ s.emails, r.email = e.email) ∨ e.email ∈ call.stored := by
  have heffect : Effect c s call (exec c call s).2 := exec_effect
  generalize (exec c call s).2 = s' at heffect he
  cases heffect with
  | signedUp email isVerified provider handles n account users alive inserted free =>
    rcases List.mem_append.mp he with he | he
    · exact .inl ⟨e, he, rfl⟩
    · rw [List.mem_singleton.mp he]
      exact .inr List.mem_cons_self
  | primaryVerified id free => exact .inl (email_of_mem_map he)
  | upserted user emails =>
    exact (email_of_mem_upsert he).imp_left fun he => ⟨e, he, rfl⟩
  | secondaryVerified user email codeHash maxAttempts id f free =>
    unfold Store.verifiedRow at he
    split at he
    · exact .inl (email_of_mem_map he)
    · rcases List.mem_append.mp he with he | he
      · exact .inl ⟨e, he, rfl⟩
      · rw [List.mem_singleton.mp he]
        exact .inr List.mem_cons_self
  | _ => exact .inl ⟨e, he, rfl⟩

/-! ### What the services store -/

/-- GitHub has reported the address as verified. -/
def Reported (seen : List MailEvent) (email : String) : Prop :=
  ∃ token emails, (⟨.auth (.getUserEmails token), .ok emails⟩ : MailEvent) ∈ seen ∧
    ∃ e ∈ emails, e.verified = true ∧ e.email = email

/-- A service stores what was parsed, and what GitHub has reported. -/
def Stores (E : EmailParser) (seen : List MailEvent) : MailCall → Prop
  | .auth inner => ∀ email ∈ inner.stored, E.Canonical email ∨ Reported seen email
  | _ => True

variable {E : EmailParser} {seen : List MailEvent} {email : String}

/-- What happens after the address has been reported. -/
theorem Reported.later {e : MailEvent} (h : Reported seen email) : Reported (e :: seen) email := by
  obtain ⟨token, emails, hseen, hemail⟩ := h
  exact ⟨token, emails, List.mem_cons_of_mem _ hseen, hemail⟩

/-- The services that a parsed address is given to store no other. -/
abbrev StoresOnly (email : String) (p : AuthProg Reply) : Prop :=
  Calls (fun call : AuthCall => ∀ stored ∈ call.stored, stored = email) p

theorem storesOnly_ask {call : AuthCall} {f : call.Resp → AuthProg Reply}
    (hc : ∀ stored ∈ call.stored, stored = email) (hf : ∀ a, StoresOnly email (f a)) :
    StoresOnly email (askAuth call >>= f) :=
  calls_bind hf (calls_perform hc)

theorem storesOnly_mailAuthCode {c : Setup} {draws : Draws} {user : User} :
    StoresOnly email (mailAuthCode c draws email user) := by
  refine storesOnly_ask (by simp [AuthCall.stored]) fun now => ?_
  refine storesOnly_ask (by simp [AuthCall.stored]) fun _ => ?_
  refine storesOnly_ask (by simp [AuthCall.stored]) fun _ => ?_
  exact storesOnly_ask (by simp [AuthCall.stored]) fun _ => trivial

theorem storesOnly_sendAuthCode {c : Setup} {draws : Draws} :
    StoresOnly email (sendAuthCode c draws email) := by
  refine storesOnly_ask (by simp [AuthCall.stored]) fun user => ?_
  cases user with
  | some user => exact storesOnly_mailAuthCode
  | none =>
    refine storesOnly_ask (by simp [AuthCall.stored]) fun taken => ?_
    refine calls_ite trivial ?_
    exact storesOnly_ask (by simp [AuthCall.stored]) fun user => storesOnly_mailAuthCode

theorem storesOnly_sendAuthEmail {c : Setup} {draws : Draws} :
    StoresOnly email (sendAuthEmail c draws ⟨email⟩) := by
  refine ⟨by simp [AuthCall.stored], fun r => ?_⟩
  dsimp only
  split
  · trivial
  · exact storesOnly_sendAuthCode
  · exact storesOnly_sendAuthCode

theorem storesOnly_verifyAuthCode {c : Setup} {draws : Draws} {code : String} :
    StoresOnly email (verifyAuthCode c draws ⟨email, code⟩) := by
  refine storesOnly_ask (by simp [AuthCall.stored]) fun user => ?_
  cases user with
  | none => trivial
  | some user =>
    refine calls_ite trivial ?_
    refine storesOnly_ask (by simp [AuthCall.stored]) fun verification => ?_
    cases verification with
    | success =>
      refine storesOnly_ask (by simp [AuthCall.stored]) fun _ => ?_
      refine storesOnly_ask (by simp [AuthCall.stored]) fun _ => ?_
      refine storesOnly_ask (by simp [AuthCall.stored]) fun _ => ?_
      exact storesOnly_ask (by simp [AuthCall.stored]) fun _ => trivial
    | _ => trivial

theorem storesOnly_mailEmailCode {c : Setup} {draws : Draws} {user : Uuid} :
    StoresOnly email (mailEmailCode c draws user email) := by
  refine storesOnly_ask (by simp [AuthCall.stored]) fun _ => ?_
  refine storesOnly_ask (by simp [AuthCall.stored]) fun _ => ?_
  refine storesOnly_ask (by simp [AuthCall.stored]) fun _ => ?_
  exact storesOnly_ask (by simp [AuthCall.stored]) fun _ => trivial

theorem storesOnly_addEmail {c : Setup} {draws : Draws} {user : Uuid} :
    StoresOnly email (addEmail c draws ⟨user, email⟩) := by
  refine storesOnly_ask (by simp [AuthCall.stored]) fun taken => ?_
  refine calls_ite trivial ⟨by simp [AuthCall.stored], fun r => ?_⟩
  dsimp only
  split
  · trivial
  · exact storesOnly_mailEmailCode
  · exact storesOnly_mailEmailCode

theorem storesOnly_verifyEmail {c : Setup} {user : Uuid} {code : String} :
    StoresOnly email (verifyEmail c ⟨user, email, code⟩) := by
  refine ⟨by simp [AuthCall.stored], fun r => ?_⟩
  dsimp only
  split <;> trivial

/-- The services that take a parsed address, as programs of the larger system. -/
theorem StoresOnly.stores {p : AuthProg Reply} (hp : StoresOnly email p) (he : E.Canonical email) :
    Obeys (Stores E) (fun _ _ => True) [] (p.mapCalls MailCall.auth) := by
  refine obeys_mapCalls_nil (hp.obeys (fun seen call hcall => ?_) fun _ _ => trivial)
  intro stored hstored
  rw [hcall stored hstored]
  exact .inl he

theorem stores_parsed {text : String} {service : String → AuthProg Reply}
    (hservice : ∀ email, StoresOnly email (service email)) :
    Obeys (Stores c.parser) (fun _ _ => True) [] (parsed c text service) := by
  unfold parsed
  split
  · trivial
  · rename_i email hparse
    exact (hservice email).stores (EmailParser.canonical_of_parse hparse)

/-- GitHub's verified addresses, once it has reported them. -/
theorem reported_of_mem {token : String} {emails : List GitHubEmail}
    (hseen : (⟨.auth (.getUserEmails token), .ok emails⟩ : MailEvent) ∈ seen)
    {e : GitHubEmail} (he : e ∈ emails) (hverified : e.verified = true) : Reported seen e.email :=
  ⟨token, emails, hseen, e, he, hverified, rfl⟩

theorem obeys_askMail {α : Type} {call : MailCall} {f : call.Resp → MailProg α} (hc : Stores E seen call)
    (hf : ∀ a, Obeys (Stores E) (fun _ _ => True) (⟨call, .ok a⟩ :: seen) (f a)) :
    Obeys (Stores E) (fun _ _ => True) seen (askMail call >>= f) :=
  obeys_perform_bind hc (fun _ => trivial) hf

theorem stores_recordInstallation {request : CreateGitHubInstallationRequest}
    {type : GitHubInstallationType} {login token : String} :
    Obeys (Stores E) (fun _ _ => True) seen (recordInstallation request type login token) := by
  refine obeys_askMail (by simp [Stores, AuthCall.stored]) fun githubEmails => ?_
  refine obeys_ite (fun _ => obeys_askMail trivial fun _ => trivial) fun _ => ?_
  refine obeys_askMail (fun email hemail => .inr ?_) fun _ => obeys_askMail trivial fun _ => trivial
  obtain ⟨e, he, rfl⟩ := List.mem_map.mp hemail
  obtain ⟨he, hverified⟩ := List.mem_filter.mp he
  exact reported_of_mem List.mem_cons_self he hverified

theorem stores_createGithubInstallation {request : CreateGitHubInstallationRequest} :
    Obeys (Stores E) (fun _ _ => True) seen (createGithubInstallation request) := by
  refine obeys_askMail trivial fun userId => obeys_ite (fun _ => trivial) fun _ => ?_
  refine obeys_askMail (by simp [Stores, AuthCall.stored]) fun token => ?_
  refine obeys_askMail trivial fun githubUserName => obeys_askMail trivial fun installation => ?_
  refine obeys_bind (R := fun _ _ => True) (fun _ _ _ => stores_recordInstallation)
    (fun _ _ _ => trivial) ?_
  unfold verifyOwnership
  split
  · exact obeys_ite (fun _ => trivial) fun _ => trivial
  · exact obeys_askMail trivial fun _ => obeys_ite (fun _ => trivial) fun _ => trivial

/-- The protocol of the larger system, for what the sign-in has seen. -/
abbrev SignInStores (E : EmailParser) (seen : List AuthEvent) (call : AuthCall) : Prop :=
  Stores E (seen.map (mapEvent MailCall.auth)) (.auth call)

theorem obeys_askSignIn {seen : List AuthEvent} {call : AuthCall}
    {f : call.Resp → AuthProg Reply} (hc : SignInStores E seen call)
    (hf : ∀ a, Obeys (SignInStores E) (fun _ _ => True) (⟨call, .ok a⟩ :: seen) (f a)) :
    Obeys (SignInStores E) (fun _ _ => True) seen (askAuth call >>= f) :=
  obeys_perform_bind hc (fun _ => trivial) hf

theorem stores_startSession {seen : List AuthEvent} {draws : Draws} {user : User} {isNew : Bool} :
    Obeys (SignInStores E) (fun _ _ => True) seen (startSession c.auth draws user isNew) := by
  refine obeys_askSignIn (by simp [Stores, AuthCall.stored]) fun _ => ?_
  refine obeys_askSignIn (by simp [Stores, AuthCall.stored]) fun _ => ?_
  exact obeys_askSignIn (by simp [Stores, AuthCall.stored]) fun _ => trivial

theorem stores_signUpWithGithub {seen : List AuthEvent} {draws : Draws} {token : String}
    {githubEmails : List GitHubEmail} {primary : GitHubEmail}
    (hseen : (⟨.getUserEmails token, .ok githubEmails⟩ : AuthEvent) ∈ seen)
    (hprimary : primary ∈ githubEmails) (hverified : primary.verified = true) :
    Obeys (SignInStores E) (fun _ _ => True) seen
      (signUpWithGithub c.auth draws githubEmails primary.email) := by
  have hreported : ∀ e ∈ githubEmails, e.verified = true →
      ∀ events, seen <:+ events → Reported (events.map (mapEvent MailCall.auth)) e.email :=
    fun e he hv events hsuffix =>
      ⟨token, githubEmails, List.mem_map.mpr ⟨_, hsuffix.subset hseen, rfl⟩, e, he, hv, rfl⟩
  refine obeys_askSignIn (by simp [Stores, AuthCall.stored]) fun taken => ?_
  refine obeys_ite (fun _ => trivial) fun _ => obeys_askSignIn ?_ fun user => ?_
  · intro email hemail
    rw [List.mem_singleton.mp hemail]
    exact .inr (hreported primary hprimary hverified _ (List.suffix_cons _ _))
  · refine obeys_ite (fun _ => stores_startSession) fun _ => ?_
    refine obeys_askSignIn (fun email hemail => .inr ?_) fun _ => stores_startSession
    obtain ⟨e, he, rfl⟩ := List.mem_map.mp hemail
    obtain ⟨he, hextra⟩ := List.mem_filter.mp he
    exact hreported e he (Bool.and_eq_true_iff.mp hextra).1 _
      ((List.suffix_cons _ _).trans (List.suffix_cons _ _))

theorem stores_exchangeGithubCode {draws : Draws} {request : ExchangeGitHubCodeRequest} :
    Obeys (Stores E) (fun _ _ => True) []
      ((exchangeGithubCode c.auth draws request).mapCalls MailCall.auth) := by
  refine obeys_mapCalls_nil ?_
  refine obeys_askSignIn (by simp [Stores, AuthCall.stored]) fun valid => ?_
  refine obeys_ite (fun _ => trivial) fun _ => ?_
  refine obeys_askSignIn (by simp [Stores, AuthCall.stored]) fun githubToken => ?_
  refine obeys_askSignIn (by simp [Stores, AuthCall.stored]) fun githubEmails => ?_
  cases hfind : githubEmails.find? fun e => e.primary && e.verified with
  | none => trivial
  | some primary =>
    have hfound : (primary.primary && primary.verified) = true := by
      simpa using List.find?_some hfind
    have hverified : primary.verified = true := (Bool.and_eq_true_iff.mp hfound).2
    refine obeys_askSignIn (by simp [Stores, AuthCall.stored]) fun user => ?_
    cases user with
    | some user => exact obeys_ite (fun _ => trivial) fun _ => stores_startSession
    | none =>
      exact stores_signUpWithGithub (List.mem_cons_of_mem _ List.mem_cons_self)
        (List.mem_of_find?_eq_some hfind) hverified

/-- Every request stores only addresses that were parsed or reported. -/
theorem mail_obeys (op : MailOp) :
    Obeys (Stores c.parser) (fun _ _ => True) [] (mailProgram c op) := by
  obtain ⟨request, draws⟩ := op
  cases request with
  | sendAuthEmail email => exact stores_parsed fun _ => storesOnly_sendAuthEmail
  | verifyAuthCode email code => exact stores_parsed fun _ => storesOnly_verifyAuthCode
  | exchangeGithubCode request => exact stores_exchangeGithubCode
  | createGithubInstallation request => exact stores_createGithubInstallation
  | addEmail userId email => exact stores_parsed fun _ => storesOnly_addEmail
  | verifyEmail userId email code => exact stores_parsed fun _ => storesOnly_verifyEmail

/-! ### Runs -/

variable {P : MailPool}

abbrev MailRun (c : MailSetup) (guard : MailPool → MailMove → Prop) : MailPool → Prop :=
  Reach MailIdle (mailNext c) guard

theorem mailIdle_empty (h : MailIdle P) : P.sys.log = [] ∧ P.threads = [] := by
  obtain ⟨now, rfl⟩ := h
  exact ⟨rfl, rfl⟩

/-- What GitHub has reported to a request is canonical. -/
theorem canonical_of_reported (hP : MailRun c (ReportsCanonical c) P) {n : ℕ}
    (h : Reported (Lib.seen n P.sys.log) email) : c.parser.Canonical email := by
  obtain ⟨token, emails, hseen, e, he, hverified, rfl⟩ := h
  have hnone : ∀ P, MailIdle P →
      (⟨.auth (.getUserEmails token), .ok emails⟩ : MailEvent) ∉ Lib.seen n P.sys.log := by
    intro P hidle hmem
    rw [(mailIdle_empty hidle).1] at hmem
    cases hmem
  obtain ⟨op, P₀, P₁, hm⟩ := hP.moment_of_seen hnone hseen
  obtain ⟨k, hk⟩ := hm.thread
  have hreports := hm.guarded.of_thread hk
  have hanswer : c.auth.getUserEmails token = .ok emails := hm.exec
  have hreported : c.reports (.auth (.getUserEmails token)) = emails :=
    congrArg (fun r => r.toOption.getD []) hanswer
  exact hreports e (hreported ▸ he) hverified

/-- The addresses after a move. -/
theorem canonical_next (hP : MailRun c (ReportsCanonical c) P) {m : MailMove}
    (h : ∀ e ∈ P.sys.store.auth.emails, c.parser.Canonical e.email) :
    ∀ e ∈ (mailNext c m P).sys.store.auth.emails, c.parser.Canonical e.email := by
  cases m with
  | start op => exact h
  | env seconds => exact h
  | step n fate =>
    unfold mailNext
    rcases atCall_or_done P n with ⟨op, call, k, hn⟩ | hdone
    · have hstores := ((obeyed_run (fun _ => mailIdle_empty) mail_obeys hP).rests n _ hn).1
      rw [next_step hn]
      refine perform_keeps (P := fun s : MailStore => ∀ e ∈ s.auth.emails, c.parser.Canonical e.email) h ?_
      intro e he
      cases call with
      | auth inner =>
        rcases emails_exec he with ⟨r, hr, heq⟩ | hstored
        · exact heq ▸ h r hr
        · exact (hstores e.email hstored).elim id (canonical_of_reported hP)
      | createInstallation installation =>
        have hemails : (P.sys.store.createInstallation installation).2.auth = P.sys.store.auth := by
          unfold MailStore.createInstallation
          split_ifs <;> rfl
        exact h e (hemails ▸ he)
      | _ => exact h e he
    · rw [hdone fate]
      exact h

/-- **Canonical addresses.** -/
theorem addresses_canonical (hP : MailRun c (ReportsCanonical c) P) :
    CanonicalAddresses c.parser P.sys.store.auth := by
  have hcanonical : ∀ e ∈ P.sys.store.auth.emails, c.parser.Canonical e.email := by
    induction hP with
    | start hidle =>
      obtain ⟨now, rfl⟩ := hidle
      nofun
    | next m hP hguard ih => exact canonical_next hP ih
  refine ⟨hcanonical, fun e he r hr _ hne hsame => hne ?_⟩
  rw [← (hcanonical e he).lower, ← (hcanonical r hr).lower, hsame]

/-! ### An instance -/

/-- An ASCII letter in lower case. -/
def asciiLower (c : Char) : Char :=
  if 65 ≤ c.toNat ∧ c.toNat ≤ 90 then Char.ofNat (c.toNat + 32) else c

theorem asciiLower_keeps (c : Char) : asciiLower (asciiLower c) = asciiLower c ∧
    asciiLower c ≠ 'Σ' ∨ asciiLower c = c := by
  by_cases hupper : 65 ≤ c.toNat ∧ c.toNat ≤ 90
  · refine .inl ?_
    rw [← Char.ofNat_toNat c]
    obtain ⟨hle, hge⟩ := hupper
    generalize c.toNat = n at hle hge
    interval_cases n <;> decide
  · exact .inr (if_neg hupper)

theorem isWhitespace_asciiLower (c : Char) :
    Ci.isWhitespace (asciiLower c) = Ci.isWhitespace c := by
  by_cases hupper : 65 ≤ c.toNat ∧ c.toNat ≤ 90
  · rw [← Char.ofNat_toNat c]
    obtain ⟨hle, hge⟩ := hupper
    generalize c.toNat = n at hle hge
    interval_cases n <;> decide
  · rw [asciiLower, if_neg hupper]

/-- The mapping of ASCII text and of the sigma. -/
def asciiTable : CaseTable Ci.isWhitespace where
  lower c := if c = 'Σ' then ['σ'] else [asciiLower c]
  cased c := c.isAlpha || decide (c ∈ ['Σ', 'σ', 'ς'])
  caseIgnorable c := decide (c ∈ "'.:^`".toList)
  lower_ne_nil c := by split_ifs <;> nofun
  lower_lower c d hd := by
    split_ifs at hd with hc
    · rw [List.mem_singleton.mp hd]
      decide
    · rw [List.mem_singleton.mp hd]
      rcases asciiLower_keeps c with ⟨hlower, hsigma⟩ | hsame
      · rw [if_neg hsigma, hlower]
      · rw [hsame, if_neg hc, hsame]
  lower_sigma := rfl
  lower_finalSigma := by decide
  space_lower c d hd := by
    split_ifs at hd with hc
    · rw [List.mem_singleton.mp hd, hc]
      decide
    · rw [List.mem_singleton.mp hd]
      exact isWhitespace_asciiLower c
  space_sigma := by decide

/-- The setup of the examples: GitHub takes a code for the address of a user, and
every installation is the user's. -/
def plainMailSetup : MailSetup where
  auth := plainSetup
  parser := ⟨asciiTable, fun text => text.toList.contains '@'⟩
  verifyInstallState _ state := if state = "0" then .ok 0 else .error .gitHub
  getUser token := .ok token
  getInstallation _ := .ok ⟨some "User", "alice@mail.org"⟩
  getUserMembership _ _ _ := .error .gitHub

/-- Before the first request, at the time 0. -/
def idleMail : MailPool := ⟨⟨⟨.initial 0, []⟩, []⟩, []⟩

theorem mailIdle_idleMail : MailIdle idleMail := ⟨0, rfl⟩

/-- A request whose calls are all answered. -/
def aloneMail (n k : ℕ) (request : MailRequest) (code : String) (family : Uuid) (handle : String) :
    List MailMove :=
  .start ⟨request, ⟨code, code, family, code, [handle]⟩⟩ :: List.replicate k (.step n .answered)

/-- Alice signs in by GitHub and installs the app, and Bob, who types capitals, asks
for a code. -/
def storedLower : MailPool :=
  play (mailNext plainMailSetup)
    (aloneMail 0 9 (.exchangeGithubCode ⟨"alice@mail.org", ""⟩) "t0" 1 "alice" ++
      aloneMail 1 7 (.createGithubInstallation ⟨7, 0, "alice@mail.org", "0"⟩) "" 0 "" ++
      aloneMail 2 8 (.sendAuthEmail " Bob@Mail.Org ") "1" 0 "bob") idleMail

theorem addresses_canonical_storedLower :
    storedLower.sys.store.auth.emails.map UserEmail.email = ["alice@mail.org", "bob@mail.org"] ∧
      CanonicalAddresses plainMailSetup.parser storedLower.sys.store.auth :=
  ⟨by decide +kernel, addresses_canonical (c := plainMailSetup)
    (reach_play (.start mailIdle_idleMail) (by decide +kernel))⟩

/-- GitHub reports an address in capitals, and then its user asks for a code. -/
def storedTwice : MailPool :=
  play (mailNext plainMailSetup)
    (aloneMail 0 9 (.exchangeGithubCode ⟨"Alice@mail.org", ""⟩) "t0" 1 "alice" ++
      aloneMail 1 8 (.sendAuthEmail "Alice@mail.org") "1" 0 "alice-1") idleMail

/-- The mailbox has two accounts, and one of its addresses is not canonical. -/
theorem not_addresses_canonical :
    (¬ ∀ P, MailRun plainMailSetup (fun _ _ => True) P →
        ∀ e ∈ P.sys.store.auth.emails, plainMailSetup.parser.Canonical e.email) ∧
      ¬ ∀ P, MailRun plainMailSetup (fun _ _ => True) P →
        ∀ e ∈ P.sys.store.auth.emails, ∀ r ∈ P.sys.store.auth.emails, e.userId ≠ r.userId →
          e.email ≠ r.email →
            plainMailSetup.parser.lower e.email ≠ plainMailSetup.parser.lower r.email := by
  have hrun : MailRun plainMailSetup (fun _ _ => True) storedTwice :=
    reach_play (.start mailIdle_idleMail) guarded_true
  exact ⟨fun h => absurd (h storedTwice hrun) (by decide +kernel),
    fun h => absurd (h storedTwice hrun) (by decide +kernel)⟩

end Auth
end Gitdot
