/-
# What a call changes

A call on the store of the authentication services leaves it as it is, draws
an id, or has the one effect that its name says (`Effect`). Every invariant of
the following files is derived from this case analysis.

Key definitions: `Effect`.
Key theorems: `exec_effect`, `perform_effect`.
-/
import Gitdot.Auth.Service

namespace Gitdot
namespace Auth

open Lib Prog

variable {c : Setup} {s s' : Store} {call : AuthCall}

/-- The effects of the calls on a store. -/
inductive Effect (c : Setup) (s : Store) : AuthCall → Store → Prop where
  | idle {call : AuthCall} : Effect c s call s
  | drawn {call : AuthCall} (n : ℕ) : Effect c s call { s with draws := n }
  | cooled (key : CooldownKey) (ttl : ℕ) :
      Effect c s (.setNxCooldown key ttl)
        { s with cooldowns := Function.update s.cooldowns key (some (s.now + ttl)) }
  | claimed (oldHash : String) (entry : GraceEntry) (ttl : ℕ)
      (free : s.graceEntry oldHash = none) :
      Effect c s (.setNxGrace oldHash entry ttl)
        { s with grace := Function.update s.grace oldHash (some (entry, s.now + ttl)) }
  | signedUp (email : String) (isVerified : Bool) (provider : AuthProvider)
      (handles : List String) (n : ℕ) (account : Account) (users : Table Account)
      (alive : account.deletedAt = none) (inserted : s.users.insert? account = some users)
      (free : isVerified = true → s.isEmailTaken email = false) :
      Effect c s (.createUser email isVerified provider handles)
        { s with draws := n, users := users,
                 emails := s.emails ++ [⟨account.id, email, true, isVerified⟩] }
  | primaryVerified (id : Uuid)
      (free : ∀ e ∈ s.emails, e.userId = id → e.isPrimary = true →
        s.heldByOther id e.email = false) :
      Effect c s (.verifyEmail id)
        { s with emails := s.emails.map fun e =>
            if e.userId = id ∧ e.isPrimary = true then { e with isVerified := true } else e }
  | upserted (user : Uuid) (emails : List String) :
      Effect c s (.upsertVerifiedEmails user emails)
        { s with emails := Store.upsertVerifiedEmails user emails s.emails }
  | deleted (id : Uuid) : Effect c s (.markUserAsDeleted id) (s.markUserAsDeleted id)
  | codeCreated (user : Uuid) (codeHash : String) (expiresAt : Time)
      (free : ∀ r ∈ s.authCodes, r.id ≠ c.drawId s.draws ∧ r.codeHash ≠ codeHash) :
      Effect c s (.createAuthCode user codeHash expiresAt)
        { s with draws := s.draws + 1,
                 authCodes := ⟨c.drawId s.draws, user, codeHash, 0, expiresAt, none⟩ ::
                   s.authCodes }
  | codesInvalidated (user : Uuid) :
      Effect c s (.invalidateAuthCodes user) (s.invalidateAuthCodes user)
  | codeConsumed (user : Uuid) (maxAttempts : ℕ) (code : AuthCode)
      (active : s.activeAuthCode user = some code) :
      Effect c s (.verifyAndConsumeAuthCode user code.codeHash maxAttempts)
        (s.setAuthCode code.id fun r => { r with usedAt := some s.now })
  | codeBurned (user : Uuid) (codeHash : String) (maxAttempts : ℕ) (code : AuthCode)
      (active : s.activeAuthCode user = some code) (wrong : code.codeHash ≠ codeHash)
      (spent : maxAttempts ≤ code.attemptCount + 1) :
      Effect c s (.verifyAndConsumeAuthCode user codeHash maxAttempts)
        (s.setAuthCode code.id fun r =>
          { r with attemptCount := code.attemptCount + 1, usedAt := some s.now })
  | codeMissed (user : Uuid) (codeHash : String) (maxAttempts : ℕ) (code : AuthCode)
      (active : s.activeAuthCode user = some code) (wrong : code.codeHash ≠ codeHash)
      (left : code.attemptCount + 1 < maxAttempts) :
      Effect c s (.verifyAndConsumeAuthCode user codeHash maxAttempts)
        (s.setAuthCode code.id fun r => { r with attemptCount := code.attemptCount + 1 })
  | sessionCreated (user : Uuid) (hash : String) (family : Uuid) (expiresAt : Time)
      (sessions : Table Session) (fresh : ∀ r ∈ s.sessions.rows, r.id ≠ c.drawId s.draws)
      (inserted : s.sessions.insert? ⟨c.drawId s.draws, user, hash, family, expiresAt, none⟩ =
        some sessions) :
      Effect c s (.createSession user hash family expiresAt)
        { s with draws := s.draws + 1, sessions := sessions }
  | revoked (id : Uuid) : Effect c s (.revokeSession id) (s.revokeSession id)
  | familyRevoked (family : Uuid) :
      Effect c s (.revokeSessionsByFamily family) (s.revokeSessionsByFamily family)
  | userRevoked (user : Uuid) :
      Effect c s (.revokeSessionsByUser user) (s.revokeSessionsByUser user)
  | deviceRequested (deviceCodeHash userCodeHash clientId : String) (expiresAt : Time)
      (free : ∀ d ∈ s.devices, d.id ≠ c.drawId s.draws ∧ d.deviceCodeHash ≠ deviceCodeHash ∧
        d.userCodeHash ≠ userCodeHash) :
      Effect c s (.createDeviceAuthorization deviceCodeHash userCodeHash clientId expiresAt)
        { s with draws := s.draws + 1,
                 devices := ⟨c.drawId s.draws, deviceCodeHash, userCodeHash, clientId, none,
                   .pending, expiresAt⟩ :: s.devices }
  | deviceExpired (id : Uuid) :
      Effect c s (.expireDeviceAuthorization id) (s.expireDeviceAuthorization id)
  | deviceAuthorized (userCodeHash : String) (user : Uuid) :
      Effect c s (.authorizeDevice userCodeHash user) (s.authorizeDevice userCodeHash user).2
  | tokenCreated (principal : Uuid) (clientId tokenHash : String) (tokenType : TokenType) :
      Effect c s (.createToken principal clientId tokenHash tokenType)
        { s with draws := s.draws + 1,
                 tokens := ⟨c.drawId s.draws, principal, clientId, tokenHash, tokenType⟩ ::
                   s.tokens }
  | emailCodesInvalidated (user : Uuid) (email : String) :
      Effect c s (.invalidateCodesForEmail user email) (s.invalidateCodesForEmail user email)
  | emailCodeCreated (user : Uuid) (email codeHash : String) (expiresAt : Time) :
      Effect c s (.createCode user email codeHash expiresAt)
        { s with draws := s.draws + 1,
                 emailCodes := ⟨c.drawId s.draws, user, email, codeHash, 0, expiresAt, none⟩ ::
                   s.emailCodes }
  | emailCodeGuessed (user : Uuid) (email codeHash : String) (maxAttempts : ℕ) (id : Uuid)
      (f : EmailVerificationCode → EmailVerificationCode) :
      Effect c s (.verifyAndConsumeEmailCode user email codeHash maxAttempts) (s.setEmailCode id f)
  | secondaryVerified (user : Uuid) (email codeHash : String) (maxAttempts : ℕ) (id : Uuid)
      (f : EmailVerificationCode → EmailVerificationCode)
      (free : s.heldByOther user email = false) :
      Effect c s (.verifyAndConsumeEmailCode user email codeHash maxAttempts)
        ((s.setEmailCode id f).verifiedRow user email).2

theorem createUser_effect {email : String} {isVerified : Bool} {provider : AuthProvider}
    {all : List String} : ∀ {handles : List String} {n : ℕ},
      Effect c s (.createUser email isVerified provider all)
        (Store.createUser c email isVerified provider handles { s with draws := n }).2
  | [], n => .drawn n
  | handle :: handles, n => by
    unfold Store.createUser
    cases hins : Store.insertUser { s with draws := n } c email isVerified provider handle with
    | none => exact createUser_effect
    | some out =>
      obtain ⟨account, s'⟩ := out
      unfold Store.insertUser at hins
      split_ifs at hins with hname hemail
      obtain ⟨users, hinserted, heq⟩ := Option.map_eq_some_iff.mp hins
      obtain ⟨rfl, rfl⟩ := Prod.mk.inj heq
      exact .signedUp email isVerified provider all _ _ users rfl hinserted fun hv =>
        Bool.eq_false_of_not_eq_true fun ht => hemail ⟨hv, ht⟩

/-- `create_session` is refused and draws an id, or inserts the session. -/
theorem createSession_cases (c : Setup) (s : Store) (user : Uuid) (hash : String) (family : Uuid)
    (expiresAt : Time) :
    s.createSession c user hash family expiresAt =
        (dbError .uniqueViolation, { s with draws := s.draws + 1 }) ∨
      ∃ sessions, (∀ r ∈ s.sessions.rows, r.id ≠ c.drawId s.draws) ∧
        s.sessions.insert? ⟨c.drawId s.draws, user, hash, family, expiresAt, none⟩ =
          some sessions ∧
        s.createSession c user hash family expiresAt =
          (.ok (), { s with draws := s.draws + 1, sessions := sessions }) := by
  unfold Store.createSession
  dsimp only
  split_ifs with hid
  · exact .inl rfl
  · split
    · exact .inl rfl
    · rename_i sessions hins
      refine .inr ⟨sessions, fun r hr heq => hid ?_, hins, rfl⟩
      exact List.any_eq_true.mpr ⟨r, hr, decide_eq_true heq⟩

theorem createSession_effect {user : Uuid} {hash : String} {family : Uuid} {expiresAt : Time} :
    Effect c s (.createSession user hash family expiresAt)
      (s.createSession c user hash family expiresAt).2 := by
  rcases createSession_cases c s user hash family expiresAt with heq | ⟨sessions, hfresh, hins, heq⟩
  · rw [heq]
    exact .drawn _
  · rw [heq]
    exact .sessionCreated user hash family expiresAt sessions hfresh hins

/-- The session that `create_session` inserts. -/
theorem createSession_ok {user : Uuid} {hash : String} {family : Uuid} {expiresAt : Time}
    (h : (s.createSession c user hash family expiresAt).1 = .ok ()) :
    (s.createSession c user hash family expiresAt).2.sessions.get? hash =
      some ⟨c.drawId s.draws, user, hash, family, expiresAt, none⟩ := by
  rcases createSession_cases c s user hash family expiresAt with heq | ⟨sessions, -, hins, heq⟩
  · rw [heq] at h
    cases h
  · rw [heq]
    exact (Table.get?_insert? hins hash).trans (if_pos rfl)

theorem verifyAndConsumeAuthCode_effect {user : Uuid} {codeHash : String} {maxAttempts : ℕ} :
    Effect c s (.verifyAndConsumeAuthCode user codeHash maxAttempts)
      (s.verifyAndConsumeAuthCode user codeHash maxAttempts).2 := by
  unfold Store.verifyAndConsumeAuthCode
  cases hactive : s.activeAuthCode user with
  | none => exact .idle
  | some code =>
    dsimp only
    split_ifs with hright hspent
    · subst hright
      exact .codeConsumed user maxAttempts code hactive
    · exact .codeBurned user codeHash maxAttempts code hactive hright hspent
    · exact .codeMissed user codeHash maxAttempts code hactive hright (Nat.lt_of_not_le hspent)

theorem verifyAndConsumeEmailCode_effect {user : Uuid} {email codeHash : String}
    {maxAttempts : ℕ} :
    Effect c s (.verifyAndConsumeEmailCode user email codeHash maxAttempts)
      (s.verifyAndConsumeEmailCode user email codeHash maxAttempts).2 := by
  unfold Store.verifyAndConsumeEmailCode
  cases s.activeEmailCode user email with
  | none => exact .idle
  | some code =>
    dsimp only
    split_ifs with hwrong hspent hheld
    · exact .emailCodeGuessed user email codeHash maxAttempts _ _
    · exact .emailCodeGuessed user email codeHash maxAttempts _ _
    · exact .idle
    · exact .secondaryVerified user email codeHash maxAttempts _ _
        (Bool.eq_false_of_not_eq_true hheld)

/-- **Effects.** Performing a call has one of these effects. -/
theorem exec_effect : Effect c s call (exec c call s).2 := by
  cases call with
  | createUser email isVerified provider handles => exact createUser_effect (n := s.draws)
  | setNxCooldown key ttl =>
    change Effect c s (.setNxCooldown key ttl) (s.setNxCooldown key ttl).2
    unfold Store.setNxCooldown
    split_ifs
    · exact .idle
    · exact .cooled key ttl
  | setNxGrace oldHash entry ttl =>
    change Effect c s (.setNxGrace oldHash entry ttl) (s.setNxGrace oldHash entry ttl).2
    unfold Store.setNxGrace
    split_ifs with hlive
    · exact .idle
    · exact .claimed oldHash entry ttl (Option.not_isSome_iff_eq_none.mp hlive)
  | verifyEmail id =>
    change Effect c s (.verifyEmail id) (s.verifyEmail id).2
    unfold Store.verifyEmail
    split_ifs with hheld
    · exact .idle
    · refine .primaryVerified id fun e he huser hprimary => ?_
      refine Bool.eq_false_of_not_eq_true fun hother => hheld (List.any_eq_true.mpr ⟨e, he, ?_⟩)
      rw [decide_eq_true ⟨huser, hprimary⟩, hother]
      rfl
  | upsertVerifiedEmails user emails => exact .upserted user emails
  | markUserAsDeleted id => exact .deleted id
  | createAuthCode user codeHash expiresAt =>
    change Effect c s (.createAuthCode user codeHash expiresAt)
      (s.createAuthCode c user codeHash expiresAt).2
    unfold Store.createAuthCode
    dsimp only
    split_ifs with htaken
    · exact .drawn _
    · refine .codeCreated user codeHash expiresAt fun r hr => not_or.mp fun hsame => ?_
      exact htaken (List.any_eq_true.mpr ⟨r, hr, decide_eq_true hsame⟩)
  | invalidateAuthCodes user => exact .codesInvalidated user
  | verifyAndConsumeAuthCode user codeHash maxAttempts => exact verifyAndConsumeAuthCode_effect
  | createSession user hash family expiresAt => exact createSession_effect
  | revokeSession id => exact .revoked id
  | revokeSessionsByFamily family => exact .familyRevoked family
  | revokeSessionsByUser user => exact .userRevoked user
  | createDeviceAuthorization deviceCodeHash userCodeHash clientId expiresAt =>
    change Effect c s (.createDeviceAuthorization deviceCodeHash userCodeHash clientId expiresAt)
      (s.createDeviceAuthorization c deviceCodeHash userCodeHash clientId expiresAt).2
    unfold Store.createDeviceAuthorization
    dsimp only
    split_ifs with htaken
    · exact .drawn _
    · refine .deviceRequested deviceCodeHash userCodeHash clientId expiresAt fun d hd => ?_
      have hnew := fun hsame => htaken (List.any_eq_true.mpr ⟨d, hd, decide_eq_true hsame⟩)
      exact ⟨fun h => hnew (.inl h), fun h => hnew (.inr (.inl h)), fun h => hnew (.inr (.inr h))⟩
  | expireDeviceAuthorization id => exact .deviceExpired id
  | authorizeDevice userCodeHash user => exact .deviceAuthorized userCodeHash user
  | createToken principal clientId tokenHash tokenType =>
    change Effect c s (.createToken principal clientId tokenHash tokenType)
      (s.createToken c principal clientId tokenHash tokenType).2
    unfold Store.createToken
    dsimp only
    split_ifs
    · exact .drawn _
    · exact .tokenCreated principal clientId tokenHash tokenType
  | invalidateCodesForEmail user email => exact .emailCodesInvalidated user email
  | createCode user email codeHash expiresAt =>
    change Effect c s (.createCode user email codeHash expiresAt)
      (s.createCode c user email codeHash expiresAt).2
    unfold Store.createCode
    dsimp only
    split_ifs
    · exact .drawn _
    · exact .emailCodeCreated user email codeHash expiresAt
  | verifyAndConsumeEmailCode user email codeHash maxAttempts =>
    exact verifyAndConsumeEmailCode_effect
  | now | getGrace | getByPrimaryEmail | isEmailTaken | getById | getSessionByRefreshHash
  | getDeviceAuthorization | generateGitdotJwt | verifyOauthState | exchangeCode | getUserEmails
  | sendEmail => exact .idle

/-- A call made by a request has the effect of the call, or none. -/
theorem perform_effect {S : AuthSys} {caller : Caller Op} {fate : Fate} :
    Effect c S.store call (S.perform (authCalls c) caller call fate).2.store := by
  rcases perform_store (authCalls c) S caller call fate with heq | heq
  · rw [heq]
    exact .idle
  · rw [heq]
    exact exec_effect

/-! ### The clock and the sessions -/

theorem Effect.now (h : Effect c s call s') : s'.now = s.now := by
  cases h with
  | secondaryVerified => unfold Store.verifiedRow; split <;> rfl
  | _ => rfl

/-- A session of one store is still a session of the other, with the user and
the family it has; once revoked it stays so. -/
def Lasts (s s' : Store) : Prop :=
  ∀ hash r, s.sessions.get? hash = some r → ∃ r', s'.sessions.get? hash = some r' ∧
    r'.id = r.id ∧ r'.userId = r.userId ∧ r'.refreshTokenFamily = r.refreshTokenFamily ∧
    r'.expiresAt = r.expiresAt ∧ (r.revokedAt.isSome = true → r'.revokedAt.isSome = true)

theorem Lasts.refl (s : Store) : Lasts s s := fun _ r hr => ⟨r, hr, rfl, rfl, rfl, rfl, id⟩

theorem Lasts.of_eq (h : s'.sessions = s.sessions) : Lasts s s' :=
  fun _ r hr => ⟨r, by rw [h]; exact hr, rfl, rfl, rfl, rfl, id⟩

theorem Lasts.trans {s'' : Store} (h : Lasts s s') (h' : Lasts s' s'') : Lasts s s'' := by
  intro hash r hr
  obtain ⟨r', hr', hid, huser, hfamily, hexpires, hrevoked⟩ := h hash r hr
  obtain ⟨r'', hr'', hid', huser', hfamily', hexpires', hrevoked'⟩ := h' hash r' hr'
  exact ⟨r'', hr'', hid'.trans hid, huser'.trans huser, hfamily'.trans hfamily,
    hexpires'.trans hexpires, fun h => hrevoked' (hrevoked h)⟩

theorem get?_revoke {p : Session → Bool} {hash : String} :
    (s.revoke p).sessions.get? hash = (s.sessions.get? hash).map fun r =>
      if p r then { r with revokedAt := some s.now } else r := by
  unfold Store.revoke
  rw [Table.get?_mapRows]

theorem lasts_revoke {p : Session → Bool} : Lasts s (s.revoke p) := by
  intro hash r hr
  refine ⟨if p r then { r with revokedAt := some s.now } else r, ?_, ?_⟩
  · rw [get?_revoke, hr]
    rfl
  · split_ifs
    · exact ⟨rfl, rfl, rfl, rfl, fun _ => rfl⟩
    · exact ⟨rfl, rfl, rfl, rfl, id⟩

theorem lasts_insert {sessions : Table Session} {r : Session} {n : ℕ}
    (h : s.sessions.insert? r = some sessions) :
    Lasts s { s with draws := n, sessions := sessions } := by
  intro hash q hq
  refine ⟨q, ?_, rfl, rfl, rfl, rfl, id⟩
  show sessions.get? hash = some q
  have hne : hash ≠ Keyed.key r := by
    rintro rfl
    rw [Table.get?_none_of_insert? h] at hq
    cases hq
  rw [Table.get?_insert? h, if_neg hne]
  exact hq

theorem Effect.lasts (h : Effect c s call s') : Lasts s s' := by
  cases h with
  | sessionCreated user hash family expiresAt sessions fresh inserted => exact lasts_insert inserted
  | revoked => exact lasts_revoke
  | familyRevoked => exact lasts_revoke
  | userRevoked => exact lasts_revoke
  | secondaryVerified => exact .of_eq (by unfold Store.verifiedRow; split <;> rfl)
  | _ => exact .of_eq rfl

/-- A call leaves the sessions, inserts one, or revokes some. -/
theorem Effect.sessions (h : Effect c s call s') :
    s'.sessions = s.sessions ∨
    (∃ user hash family expiresAt, call = .createSession user hash family expiresAt ∧
      (∀ r ∈ s.sessions.rows, r.id ≠ c.drawId s.draws) ∧
      s.sessions.insert? ⟨c.drawId s.draws, user, hash, family, expiresAt, none⟩ =
        some s'.sessions) ∨
    ∃ p, s'.sessions = (s.revoke p).sessions := by
  cases h with
  | sessionCreated user hash family expiresAt sessions fresh inserted =>
    exact .inr (.inl ⟨user, hash, family, expiresAt, rfl, fresh, inserted⟩)
  | revoked => exact .inr (.inr ⟨_, rfl⟩)
  | familyRevoked => exact .inr (.inr ⟨_, rfl⟩)
  | userRevoked => exact .inr (.inr ⟨_, rfl⟩)
  | secondaryVerified => exact .inl (by unfold Store.verifiedRow; split <;> rfl)
  | _ => exact .inl rfl

/-- A session after a call was there before, or is the one the call inserts. -/
theorem Effect.session_cases (h : Effect c s call s') {r : Session} (hr : r ∈ s'.sessions.rows) :
    (∃ q ∈ s.sessions.rows, q.id = r.id ∧ q.refreshTokenHash = r.refreshTokenHash ∧
      q.refreshTokenFamily = r.refreshTokenFamily ∧
      (q.revokedAt.isSome = true → r.revokedAt.isSome = true)) ∨
    ∃ user hash family expiresAt, call = .createSession user hash family expiresAt ∧
      r = ⟨c.drawId s.draws, user, hash, family, expiresAt, none⟩ := by
  rcases h.sessions with heq | ⟨user, hash, family, expiresAt, rfl, -, hins⟩ | ⟨p, heq⟩
  · rw [heq] at hr
    exact .inl ⟨r, hr, rfl, rfl, rfl, id⟩
  · rcases (Table.mem_insert? hins).mp hr with rfl | hr
    · exact .inr ⟨user, hash, family, expiresAt, rfl, rfl⟩
    · exact .inl ⟨r, hr, rfl, rfl, rfl, id⟩
  · rw [heq] at hr
    obtain ⟨q, hq, rfl⟩ := List.mem_map.mp hr
    refine .inl ⟨q, hq, ?_⟩
    split_ifs
    · exact ⟨rfl, rfl, rfl, fun _ => rfl⟩
    · exact ⟨rfl, rfl, rfl, id⟩

/-- A call leaves the grace cache, or claims a key that is free. -/
theorem Effect.grace (h : Effect c s call s') :
    s'.grace = s.grace ∨ ∃ oldHash entry ttl, call = .setNxGrace oldHash entry ttl := by
  cases h with
  | claimed oldHash entry ttl => exact .inr ⟨oldHash, entry, ttl, rfl⟩
  | secondaryVerified => exact .inl (by unfold Store.verifiedRow; split <;> rfl)
  | _ => exact .inl rfl

/-- A claim is lost to an entry that lives, or won. -/
theorem setNxGrace_cases (s : Store) (oldHash : String) (entry : GraceEntry) (ttl : ℕ) :
    s.setNxGrace oldHash entry ttl = (false, s) ∨
      s.graceEntry oldHash = none ∧ s.setNxGrace oldHash entry ttl =
        (true, { s with grace := Function.update s.grace oldHash (some (entry, s.now + ttl)) }) := by
  unfold Store.setNxGrace
  split_ifs with hlive
  · exact .inl rfl
  · exact .inr ⟨Option.not_isSome_iff_eq_none.mp hlive, rfl⟩

theorem graceEntry_eq_some {oldHash : String} {entry : GraceEntry} :
    s.graceEntry oldHash = some entry ↔
      ∃ expiry, s.grace oldHash = some (entry, expiry) ∧ s.now < expiry := by
  unfold Store.graceEntry
  constructor
  · intro h
    obtain ⟨⟨e, expiry⟩, hgrace, hlive⟩ := Option.bind_eq_some_iff.mp h
    split_ifs at hlive with hnow
    · obtain rfl := Option.some.inj hlive
      exact ⟨expiry, hgrace, hnow⟩
  · rintro ⟨expiry, hgrace, hnow⟩
    rw [hgrace]
    exact if_pos hnow

/-- Some seconds leave the sessions alone. -/
theorem lasts_wait {seconds : ℕ} : Lasts s (wait seconds s) := .of_eq rfl

end Auth
end Gitdot
