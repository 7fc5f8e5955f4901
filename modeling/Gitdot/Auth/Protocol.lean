/-
# What a request has seen before it calls

`Makes` says of each call that touches a session, a code, a device, a token or
a user what the request that makes it must have been answered before, and
`Ends` what it has been answered when it returns. Both are read off the
programs once (`program_obeys`); in a run they hold of every record of the
log (`auth_obeyed`), however the calls of the requests interleave.

Key definitions: `Saw`, `Rotates`, `SignsIn`, `Makes`, `Ends`.
Key theorems: `program_obeys`, `auth_obeyed`, `Run.happening`.
-/
import Gitdot.Auth.Effects

namespace Gitdot
namespace Auth

open Lib Prog

/-- A call with its answer. -/
abbrev AuthEvent := Prog.Event AuthCall AuthCall.Resp AuthCallError

/-- The call was answered. -/
def Saw (seen : List AuthEvent) (call : AuthCall) (a : call.Resp) : Prop :=
  (⟨call, .ok a⟩ : AuthEvent) ∈ seen

/-- No session has been asked for. -/
def Unopened (seen : List AuthEvent) : Prop :=
  ∀ user hash family expiresAt r, (⟨.createSession user hash family expiresAt, r⟩ : AuthEvent) ∉ seen

/-- No access token has been asked for. -/
def Untokened (seen : List AuthEvent) : Prop :=
  ∀ principal clientId hash tokenType r,
    (⟨.createToken principal clientId hash tokenType, r⟩ : AuthEvent) ∉ seen

/-- No account has been looked up under an address. -/
def Unlooked (seen : List AuthEvent) : Prop :=
  ∀ email r, (⟨.getByPrimaryEmail email, r⟩ : AuthEvent) ∉ seen

/-- The hash of the token that a refresh presents. -/
def Op.presents (c : Setup) (op : Op) : Option String :=
  match op.request with
  | .refreshSession request => some (c.hashString request.refreshToken)
  | _ => none

/-- The family that a sign-in opens. -/
def Op.opens (op : Op) : Option Uuid :=
  match op.request with
  | .verifyAuthCode _ => some op.draws.family
  | .exchangeGithubCode _ => some op.draws.family
  | _ => none

/-- The device code that is polled, hashed. -/
def Op.polls (c : Setup) (op : Op) : Option String :=
  match op.request with
  | .pollToken request => some (c.hashString request.deviceCode)
  | _ => none

/-- The key that a call reads in the grace cache. -/
def AuthCall.graceKey : AuthCall → Option String
  | .getGrace oldHash => some oldHash
  | _ => none

/-- A refresh that has found the session of its token, and the user of the
session not deleted. -/
structure Presents (c : Setup) (op : Op) (seen : List AuthEvent) (oldHash : String)
    (session : Session) (user : User) : Prop where
  presents : op.presents c = some oldHash
  found : Saw seen (.getSessionByRefreshHash oldHash) (some session)
  owner : Saw seen (.getById session.userId) (some user)
  alive : user.deletedAt = none

/-- A refresh that has claimed the rotation of a session it found not revoked. -/
structure Rotates (c : Setup) (op : Op) (seen : List AuthEvent) (oldHash : String)
    (session : Session) (user : User) (entry : GraceEntry) : Prop extends
    Presents c op seen oldHash session user where
  unrevoked : session.revokedAt = none
  claimed : Saw seen (.setNxGrace oldHash entry graceWindow) true
  token : entry.refreshToken = op.draws.code

/-- A sign-in of a user under an address: by a code that was right, or by GitHub
as a user who is not deleted or is new. -/
def SignsIn (c : Setup) (op : Op) (seen : List AuthEvent) (email : String) (user : User) : Prop :=
  match op.request with
  | .verifyAuthCode request => email = request.email ∧
      Saw seen (.getByPrimaryEmail email) (some user) ∧ user.deletedAt = none ∧
      Saw seen (.verifyAndConsumeAuthCode user.id (c.hashString request.code) maxAuthCodeAttempts)
        .success ∧
      Saw seen (.verifyEmail user.id) ()
  | .exchangeGithubCode _ =>
      (Saw seen (.getByPrimaryEmail email) (some user) ∧ user.deletedAt = none) ∨
      (Saw seen (.getByPrimaryEmail email) none ∧
        Saw seen (.createUser email true .gitHub (op.draws.handles.take 3)) user)
  | _ => False

/-- What must have been seen before a call. -/
def Makes (c : Setup) (op : Op) (seen : List AuthEvent) : AuthCall → Prop
  | .getGrace oldHash => ∃ session user, Presents c op seen oldHash session user
  | .setNxGrace oldHash entry ttl => Unopened seen ∧ ttl = graceWindow ∧
      entry.refreshToken = op.draws.code ∧
      ∃ session user, Presents c op seen oldHash session user ∧ session.revokedAt = none
  | .revokeSession id =>
      (∃ oldHash session user entry, Rotates c op seen oldHash session user entry ∧
        id = session.id) ∨
      ∃ request session, op.request = .logout request ∧
        Saw seen (.getSessionByRefreshHash (c.hashString request.refreshToken)) (some session) ∧
        id = session.id
  | .revokeSessionsByFamily family => ∃ oldHash session user,
      Presents c op seen oldHash session user ∧ family = session.refreshTokenFamily
  | .createSession user hash family _ => Unopened seen ∧ hash = c.hashString op.draws.code ∧
      ((∃ email u, SignsIn c op seen email u ∧ user = u.id ∧ op.opens = some family) ∨
        ∃ oldHash session u entry, Rotates c op seen oldHash session u entry ∧
          Saw seen (.revokeSession session.id) () ∧ user = session.userId ∧
          family = session.refreshTokenFamily)
  | .generateGitdotJwt user _ => (∃ email u, SignsIn c op seen email u ∧ user = u.id) ∨
      ∃ oldHash session u, Presents c op seen oldHash session u ∧ user = u.id
  | .markUserAsDeleted user => op.request = .deleteAccount ⟨user⟩
  | .revokeSessionsByUser user => op.request = .deleteAccount ⟨user⟩
  | .createAuthCode user _ _ => Saw seen (.invalidateAuthCodes user) ()
  | .verifyAndConsumeAuthCode user codeHash maxAttempts => maxAttempts = maxAuthCodeAttempts ∧
      ∃ request u, op.request = .verifyAuthCode request ∧ codeHash = c.hashString request.code ∧
        Saw seen (.getByPrimaryEmail request.email) (some u) ∧ u.deletedAt = none ∧ user = u.id
  | .getByPrimaryEmail _ => Unlooked seen
  | .createUser email isVerified _ _ => Saw seen (.getByPrimaryEmail email) none ∧
      Saw seen (.isEmailTaken email) false ∧
      ((∃ request, op.request = .sendAuthEmail request ∧ isVerified = false) ∨
        ∃ request, op.request = .exchangeGithubCode request ∧ isVerified = true)
  | .verifyEmail user => ∃ request u, op.request = .verifyAuthCode request ∧
      Saw seen (.getByPrimaryEmail request.email) (some u) ∧ user = u.id
  | .getDeviceAuthorization deviceCodeHash => op.polls c = some deviceCodeHash ∧ seen = []
  | .createToken principal clientId tokenHash tokenType => Untokened seen ∧
      tokenHash = c.hashString op.draws.accessToken ∧ tokenType = .personal ∧
      ∃ deviceCodeHash device user, op.polls c = some deviceCodeHash ∧
        Saw seen (.getDeviceAuthorization deviceCodeHash) (some device) ∧
        device.status = .authorized ∧ device.userId = some principal ∧
        clientId = device.clientId ∧ Saw seen (.getById principal) (some user)
  | .expireDeviceAuthorization id => ∃ deviceCodeHash device, op.polls c = some deviceCodeHash ∧
      Saw seen (.getDeviceAuthorization deviceCodeHash) (some device) ∧ id = device.id
  | .authorizeDevice userCodeHash user => ∃ request, op.request = .authorizeDevice request ∧
      userCodeHash = c.hashString request.userCode ∧ user = request.userId
  | _ => True

/-- A claim that was won is followed by the revocation of the session. -/
def Settled (seen : List AuthEvent) : Prop :=
  ∀ oldHash entry ttl, Saw seen (.setNxGrace oldHash entry ttl) true →
    ∃ id r, (⟨.revokeSession id, r⟩ : AuthEvent) ∈ seen

/-- What has been seen when a reply is returned. -/
def Returns (c : Setup) (op : Op) (seen : List AuthEvent) (reply : Reply) : Prop :=
  match op.request with
  | .refreshSession request => ∃ tokens session user, reply = .tokens tokens ∧
      Presents c op seen (c.hashString request.refreshToken) session user ∧
        ((∃ grace, Saw seen (.getGrace (c.hashString request.refreshToken)) (some grace) ∧
            tokens.refreshToken = grace.refreshToken) ∨
          ∃ entry expiresAt,
            Rotates c op seen (c.hashString request.refreshToken) session user entry ∧
            Saw seen (.createSession session.userId (c.hashString op.draws.code)
              session.refreshTokenFamily expiresAt) () ∧
            tokens.refreshToken = op.draws.code)
  | .deleteAccount request => Saw seen (.markUserAsDeleted request.userId) ()
  | _ => True

/-- What has been seen at the end. -/
def Ends (c : Setup) (op : Op) (seen : List AuthEvent) (result : Except AuthError Reply) : Prop :=
  (op.presents c ≠ none → Settled seen) ∧ ∀ reply, result = .ok reply → Returns c op seen reply

/-! ### The programs -/

section Programs

variable {c : Setup} {op : Op} {seen : List AuthEvent}

/-- The request is no refresh, or has settled its claim. -/
def Fair (c : Setup) (op : Op) (seen : List AuthEvent) : Prop :=
  op.presents c ≠ none → Settled seen

theorem fair_of_none (h : op.presents c = none) : Fair c op seen := fun hne => absurd h hne

theorem ends_error {e : AuthError} (h : Fair c op seen) : Ends c op seen (.error e) := ⟨h, nofun⟩

theorem ends_ok {reply : Reply} (h : Fair c op seen) (hr : Returns c op seen reply) :
    Ends c op seen (.ok reply) := by
  refine ⟨h, fun reply' heq => ?_⟩
  rw [← Except.ok.inj heq]
  exact hr

theorem settled_nil : Settled [] := fun _ _ _ h => absurd h List.not_mem_nil

/-- A call that fails wins no claim. -/
theorem Settled.error {call : AuthCall} {e : AuthCallError} (h : Settled seen) :
    Settled (⟨call, .error e⟩ :: seen) := by
  intro oldHash entry ttl hs
  rcases List.mem_cons.mp hs with heq | hs
  · cases heq
  · obtain ⟨id, r, hr⟩ := h oldHash entry ttl hs
    exact ⟨id, r, List.mem_cons_of_mem _ hr⟩

theorem Settled.cons {call : AuthCall} {r : Except AuthCallError call.Resp} (h : Settled seen)
    (hne : ∀ oldHash entry ttl, call ≠ .setNxGrace oldHash entry ttl) :
    Settled (⟨call, r⟩ :: seen) := by
  intro oldHash entry ttl hs
  rcases List.mem_cons.mp hs with heq | hs
  · exact absurd (congrArg Sigma.fst heq).symm (hne _ _ _)
  · obtain ⟨id, r, hr⟩ := h oldHash entry ttl hs
    exact ⟨id, r, List.mem_cons_of_mem _ hr⟩

/-- A claim that is lost need not be settled. -/
theorem Settled.lost {oldHash : String} {entry : GraceEntry} {ttl : ℕ} (h : Settled seen) :
    Settled (⟨.setNxGrace oldHash entry ttl, .ok false⟩ :: seen) := by
  intro oldHash' entry' ttl' hs
  rcases List.mem_cons.mp hs with heq | hs
  · cases heq
  · obtain ⟨id, r, hr⟩ := h oldHash' entry' ttl' hs
    exact ⟨id, r, List.mem_cons_of_mem _ hr⟩

theorem settled_revoked {id : Uuid} {r : Except AuthCallError Unit} :
    Settled (⟨.revokeSession id, r⟩ :: seen) :=
  fun _ _ _ _ => ⟨id, r, List.mem_cons_self⟩

/-- A call under `?`. -/
theorem obeys_ask {call : AuthCall} {f : call.Resp → AuthProg Reply} (hc : Makes c op seen call)
    (hfair : Fair c op seen)
    (hf : ∀ a, Obeys (Makes c op) (Ends c op) (⟨call, .ok a⟩ :: seen) (f a)) :
    Obeys (Makes c op) (Ends c op) seen (askAuth call >>= f) :=
  obeys_perform_bind hc (fun _ => ends_error fun hne => (hfair hne).error) hf

theorem orMissing_eq_ok {α : Type} {a : Option α} {b : α} {entity id : String}
    (h : orMissing a entity id = .ok b) : a = some b := by
  cases a with
  | none => cases h
  | some a => rw [Except.ok.inj h]

/-- What was seen is still seen. -/
theorem Saw.later {call : AuthCall} {a : call.Resp} {e : AuthEvent} (h : Saw seen call a) :
    Saw (e :: seen) call a := List.mem_cons_of_mem e h

theorem saw_head {call : AuthCall} {a : call.Resp} : Saw (⟨call, .ok a⟩ :: seen) call a :=
  List.mem_cons_self

theorem Presents.mono {seen' : List AuthEvent} {oldHash : String} {session : Session}
    {user : User} (h : Presents c op seen oldHash session user) (hsub : ∀ e ∈ seen, e ∈ seen') :
    Presents c op seen' oldHash session user :=
  ⟨h.presents, hsub _ h.found, hsub _ h.owner, h.alive⟩

theorem Rotates.mono {seen' : List AuthEvent} {oldHash : String} {session : Session}
    {user : User} {entry : GraceEntry} (h : Rotates c op seen oldHash session user entry)
    (hsub : ∀ e ∈ seen, e ∈ seen') : Rotates c op seen' oldHash session user entry :=
  ⟨h.toPresents.mono hsub, h.unrevoked, hsub _ h.claimed, h.token⟩

theorem Presents.later {oldHash : String} {session : Session} {user : User} {e : AuthEvent}
    (h : Presents c op seen oldHash session user) :
    Presents c op (e :: seen) oldHash session user :=
  h.mono fun _ he => List.mem_cons_of_mem e he

theorem Rotates.later {oldHash : String} {session : Session} {user : User} {entry : GraceEntry}
    {e : AuthEvent} (h : Rotates c op seen oldHash session user entry) :
    Rotates c op (e :: seen) oldHash session user entry :=
  h.mono fun _ he => List.mem_cons_of_mem e he

theorem unopened_cons {call : AuthCall} {r : Except AuthCallError call.Resp} (h : Unopened seen)
    (hne : ∀ user hash family expiresAt, call ≠ .createSession user hash family expiresAt) :
    Unopened (⟨call, r⟩ :: seen) := by
  intro user hash family expiresAt r' hmem
  rcases List.mem_cons.mp hmem with heq | hmem
  · exact hne _ _ _ _ (congrArg Sigma.fst heq).symm
  · exact h _ _ _ _ _ hmem

theorem replaySession_obeys {request : RefreshSessionRequest} {session : Session} {user : User}
    {accessToken : GitdotClaims} (hop : op.request = .refreshSession request)
    (hp : Presents c op seen (c.hashString request.refreshToken) session user)
    (hset : Settled seen) :
    Obeys (Makes c op) (Ends c op) seen
      (replaySession (c.hashString request.refreshToken) session accessToken) := by
  refine obeys_ask ⟨session, user, hp⟩ (fun _ => hset) fun grace => ?_
  have hset : Settled (⟨.getGrace (c.hashString request.refreshToken), .ok grace⟩ :: seen) :=
    hset.cons (by simp)
  cases grace with
  | none =>
    refine obeys_ask ⟨_, session, user, hp.later, rfl⟩ (fun _ => hset) fun _ => ?_
    exact ends_error fun _ => hset.cons (by simp)
  | some grace =>
    refine obeys_ask trivial (fun _ => hset) fun now => obeys_pure ?_
    refine ends_ok (fun _ => hset.cons (by simp)) ?_
    simp only [Returns, hop]
    exact ⟨_, session, user, rfl, hp.later.later, .inl ⟨grace, saw_head.later, rfl⟩⟩

theorem rotateSession_obeys {request : RefreshSessionRequest} {session : Session} {user : User}
    {accessToken : GitdotClaims} (hop : op.request = .refreshSession request)
    (hp : Presents c op seen (c.hashString request.refreshToken) session user)
    (hlive : session.revokedAt = none) (hun : Unopened seen) (hset : Settled seen) :
    Obeys (Makes c op) (Ends c op) seen
      (rotateSession c op.draws (c.hashString request.refreshToken) session accessToken) := by
  refine obeys_ask trivial (fun _ => hset) fun now => ?_
  have hun : Unopened (⟨.now, .ok now⟩ :: seen) := unopened_cons hun (by simp)
  have hset : Settled (⟨.now, .ok now⟩ :: seen) := hset.cons (by simp)
  refine obeys_ask ⟨hun, rfl, rfl, session, user, hp.later, hlive⟩ (fun _ => hset) fun claimed => ?_
  cases claimed with
  | false => exact replaySession_obeys hop hp.later.later hset.lost
  | true =>
    have hrot : Rotates c op (⟨.setNxGrace (c.hashString request.refreshToken)
        ⟨op.draws.code, now + refreshTokenExpiry⟩ graceWindow, .ok true⟩ :: ⟨.now, .ok now⟩ :: seen)
        (c.hashString request.refreshToken) session user _ :=
      ⟨hp.later.later, hlive, saw_head, rfl⟩
    refine obeys_perform_bind (.inl ⟨_, _, _, _, hrot, rfl⟩)
      (fun _ => ends_error fun _ => settled_revoked) fun _ => ?_
    refine obeys_ask ⟨unopened_cons (unopened_cons hun (by simp)) (by simp), rfl,
      .inr ⟨_, _, _, _, hrot.later, saw_head, rfl, rfl⟩⟩ (fun _ => settled_revoked)
      fun _ => obeys_pure ?_
    refine ends_ok (fun _ => settled_revoked.cons (by simp)) ?_
    simp only [Returns, hop]
    exact ⟨_, session, user, rfl, hp.later.later.later.later,
      .inr ⟨_, _, hrot.later.later, saw_head, rfl⟩⟩

theorem refreshSession_obeys {request : RefreshSessionRequest}
    (hop : op.request = .refreshSession request) :
    Obeys (Makes c op) (Ends c op) [] (refreshSession c op.draws request) := by
  refine obeys_ask trivial (fun _ => settled_nil) fun found => ?_
  have hset : Settled [⟨.getSessionByRefreshHash (c.hashString request.refreshToken), .ok found⟩] :=
    settled_nil.cons (by simp)
  refine obeys_liftExcept_bind (fun _ => ends_error fun _ => hset) fun session hsession => ?_
  obtain rfl := orMissing_eq_ok hsession
  refine obeys_ask trivial (fun _ => hset) fun now => ?_
  have hset : Settled (⟨.now, .ok now⟩ :: _) := hset.cons (by simp)
  refine obeys_ite (fun _ => ends_error fun _ => hset) fun _ => ?_
  refine obeys_ask trivial (fun _ => hset) fun owner => ?_
  have hset : Settled (⟨.getById session.userId, .ok owner⟩ :: _) := hset.cons (by simp)
  refine obeys_liftExcept_bind (fun _ => ends_error fun _ => hset) fun user huser => ?_
  obtain rfl := orMissing_eq_ok huser
  refine obeys_ite (fun _ => ends_error fun _ => hset) fun halive => ?_
  have hp : Presents c op [⟨.getById session.userId, .ok (some user)⟩, ⟨.now, .ok now⟩,
      ⟨.getSessionByRefreshHash (c.hashString request.refreshToken), .ok (some session)⟩]
      (c.hashString request.refreshToken) session user :=
    ⟨by simp only [Op.presents, hop], saw_head.later.later, saw_head,
      Option.not_isSome_iff_eq_none.mp halive⟩
  refine obeys_ask (.inr ⟨_, session, user, hp, rfl⟩) (fun _ => hset) fun accessToken => ?_
  have hset : Settled (⟨.generateGitdotJwt user.id user.name, .ok accessToken⟩ :: _) :=
    hset.cons (by simp)
  refine obeys_ite (fun _ => replaySession_obeys hop hp.later hset) fun hlive => ?_
  exact rotateSession_obeys hop hp.later (Option.not_isSome_iff_eq_none.mp hlive)
    (by simp [Unopened]) hset

theorem logout_obeys {request : LogoutRequest} (hop : op.request = .logout request) :
    Obeys (Makes c op) (Ends c op) [] (logout c request) := by
  have hfair : ∀ {seen}, Fair c op seen := fair_of_none (by simp only [Op.presents, hop])
  refine obeys_ask trivial hfair fun found =>
    obeys_liftExcept_bind (fun _ => ends_error hfair) fun session hsession => ?_
  obtain rfl := orMissing_eq_ok hsession
  refine obeys_ask (.inr ⟨request, session, hop, saw_head, rfl⟩) hfair fun _ =>
    obeys_pure (ends_ok hfair ?_)
  simp only [Returns, hop]

theorem mailAuthCode_obeys {request : SendAuthEmailRequest} {email : String} {user : User}
    (hop : op.request = .sendAuthEmail request) :
    Obeys (Makes c op) (Ends c op) seen (mailAuthCode c op.draws email user) := by
  have hfair : ∀ {seen}, Fair c op seen := fair_of_none (by simp only [Op.presents, hop])
  refine obeys_ask trivial hfair fun now => obeys_ask trivial hfair fun _ => ?_
  refine obeys_ask saw_head hfair fun _ => obeys_ask trivial hfair fun _ =>
    obeys_pure (ends_ok hfair ?_)
  simp only [Returns, hop]

theorem sendAuthCode_obeys {request : SendAuthEmailRequest} {email : String}
    (hop : op.request = .sendAuthEmail request) (hun : Unlooked seen) :
    Obeys (Makes c op) (Ends c op) seen (sendAuthCode c op.draws email) := by
  have hfair : ∀ {seen}, Fair c op seen := fair_of_none (by simp only [Op.presents, hop])
  refine obeys_ask hun hfair fun found => ?_
  cases found with
  | some user => exact mailAuthCode_obeys hop
  | none =>
    refine obeys_ask trivial hfair fun taken => ?_
    cases taken with
    | true => exact obeys_pure (ends_ok hfair (by simp only [Returns, hop]))
    | false =>
      refine obeys_ask ⟨saw_head.later, saw_head, .inl ⟨request, hop, rfl⟩⟩ hfair fun user => ?_
      exact mailAuthCode_obeys hop

theorem sendAuthEmail_obeys {request : SendAuthEmailRequest}
    (hop : op.request = .sendAuthEmail request) :
    Obeys (Makes c op) (Ends c op) [] (sendAuthEmail c op.draws request) := by
  have hfair : ∀ {seen}, Fair c op seen := fair_of_none (by simp only [Op.presents, hop])
  refine ⟨trivial, fun r => ?_⟩
  match r with
  | .ok false => exact ends_error hfair
  | .ok true => exact sendAuthCode_obeys hop (by simp [Unlooked])
  | .error _ => exact sendAuthCode_obeys hop (by simp [Unlooked])

theorem verifyAuthCode_obeys {request : VerifyAuthCodeRequest}
    (hop : op.request = .verifyAuthCode request) :
    Obeys (Makes c op) (Ends c op) [] (verifyAuthCode c op.draws request) := by
  have hfair : ∀ {seen}, Fair c op seen := fair_of_none (by simp only [Op.presents, hop])
  refine obeys_ask (show Unlooked _ by simp [Unlooked]) hfair fun found => ?_
  cases found with
  | none => exact ends_error hfair
  | some user =>
    refine obeys_ite (fun _ => ends_error hfair) fun halive => ?_
    have halive := Option.not_isSome_iff_eq_none.mp halive
    refine obeys_ask ⟨rfl, request, user, hop, rfl, saw_head, halive, rfl⟩ hfair fun verification => ?_
    match verification with
    | .attemptsExhausted => exact ends_error hfair
    | .invalid => exact ends_error hfair
    | .noActiveCode => exact ends_error hfair
    | .success =>
      refine obeys_ask ⟨request, user, hop, saw_head.later, rfl⟩ hfair fun _ => ?_
      refine obeys_ask trivial hfair fun now => ?_
      have hin : SignsIn c op (⟨.now, .ok now⟩ :: ⟨.verifyEmail user.id, .ok ()⟩ ::
          ⟨.verifyAndConsumeAuthCode user.id (c.hashString request.code) maxAuthCodeAttempts,
            .ok .success⟩ :: [⟨.getByPrimaryEmail request.email, .ok (some user)⟩])
          request.email user := by
        simp only [SignsIn, hop]
        exact ⟨trivial, saw_head.later.later.later, halive, saw_head.later.later, saw_head.later⟩
      refine obeys_ask ⟨by simp [Unopened], rfl, .inl ⟨_, user, hin, rfl, ?_⟩⟩ hfair fun _ => ?_
      · simp only [Op.opens, hop]
      · refine obeys_ask (.inl ⟨request.email, user, ?_, rfl⟩) hfair fun accessToken =>
        obeys_pure (ends_ok hfair ?_)
        · simp only [SignsIn, hop] at hin ⊢
          obtain ⟨-, hfound, -, hright, hverified⟩ := hin
          exact ⟨trivial, hfound.later, halive, hright.later, hverified.later⟩
        · simp only [Returns, hop]

theorem startSession_obeys {request : ExchangeGitHubCodeRequest} {email : String} {user : User}
    {isNew : Bool} (hop : op.request = .exchangeGithubCode request)
    (hin : ∀ newer, SignsIn c op (newer ++ seen) email user) (hun : Unopened seen) :
    Obeys (Makes c op) (Ends c op) seen (startSession c op.draws user isNew) := by
  have hfair : ∀ {seen}, Fair c op seen := fair_of_none (by simp only [Op.presents, hop])
  refine obeys_ask (.inl ⟨email, user, hin [], rfl⟩) hfair fun accessToken => ?_
  refine obeys_ask trivial hfair fun now => ?_
  refine obeys_ask ⟨unopened_cons (unopened_cons hun (by simp)) (by simp), rfl,
    .inl ⟨email, user, hin [_, _], rfl, ?_⟩⟩ hfair fun _ => obeys_pure (ends_ok hfair ?_)
  · simp only [Op.opens, hop]
  · simp only [Returns, hop]

theorem signUpWithGithub_obeys {request : ExchangeGitHubCodeRequest} {email : String}
    {githubEmails : List GitHubEmail} (hop : op.request = .exchangeGithubCode request)
    (hnone : Saw seen (.getByPrimaryEmail email) none) (hun : Unopened seen) :
    Obeys (Makes c op) (Ends c op) seen (signUpWithGithub c op.draws githubEmails email) := by
  have hfair : ∀ {seen}, Fair c op seen := fair_of_none (by simp only [Op.presents, hop])
  refine obeys_ask trivial hfair fun taken => ?_
  cases taken with
  | true => exact ends_error hfair
  | false =>
    refine obeys_ask ⟨hnone.later, saw_head, .inr ⟨request, hop, rfl⟩⟩ hfair fun user => ?_
    have hin : ∀ seen', (∀ e ∈ seen, e ∈ seen') →
        Saw seen' (.createUser email true .gitHub (op.draws.handles.take 3)) user →
        SignsIn c op seen' email user := by
      intro seen' hsub hcreated
      simp only [SignsIn, hop]
      exact .inr ⟨hsub _ hnone, hcreated⟩
    refine obeys_ite (fun _ => startSession_obeys hop (fun newer => hin _ ?_ ?_) ?_) fun _ => ?_
    · exact fun e he => List.mem_append_right _ (List.mem_cons_of_mem _ (List.mem_cons_of_mem _ he))
    · exact List.mem_append_right _ saw_head
    · exact unopened_cons (unopened_cons hun (by simp)) (by simp)
    · refine obeys_ask trivial hfair fun _ => startSession_obeys hop (fun newer => hin _ ?_ ?_) ?_
      · exact fun e he => List.mem_append_right _ (List.mem_cons_of_mem _ (List.mem_cons_of_mem _
          (List.mem_cons_of_mem _ he)))
      · exact List.mem_append_right _ saw_head.later
      · exact unopened_cons (unopened_cons (unopened_cons hun (by simp)) (by simp)) (by simp)

theorem exchangeGithubCode_obeys {request : ExchangeGitHubCodeRequest}
    (hop : op.request = .exchangeGithubCode request) :
    Obeys (Makes c op) (Ends c op) [] (exchangeGithubCode c op.draws request) := by
  have hfair : ∀ {seen}, Fair c op seen := fair_of_none (by simp only [Op.presents, hop])
  refine obeys_ask trivial hfair fun valid => obeys_ite (fun _ => ends_error hfair) fun _ => ?_
  refine obeys_ask trivial hfair fun githubToken => obeys_ask trivial hfair fun githubEmails => ?_
  split
  · exact ends_error hfair
  · rename_i primary hprimary
    refine obeys_ask (show Unlooked _ by simp [Unlooked]) hfair fun found => ?_
    cases found with
    | none => exact signUpWithGithub_obeys hop saw_head (by simp [Unopened])
    | some user =>
      refine obeys_ite (fun _ => ends_error hfair) fun halive => ?_
      have hin : ∀ seen', Saw seen' (.getByPrimaryEmail primary.email) (some user) →
          SignsIn c op seen' primary.email user := by
        intro seen' hfound
        simp only [SignsIn, hop]
        exact .inl ⟨hfound, Option.not_isSome_iff_eq_none.mp halive⟩
      exact startSession_obeys hop (fun newer => hin _ (List.mem_append_right _ saw_head))
        (by simp [Unopened])

theorem requestDeviceCode_obeys {request : DeviceCodeRequest}
    (hop : op.request = .requestDeviceCode request) :
    Obeys (Makes c op) (Ends c op) [] (requestDeviceCode c op.draws request) := by
  have hfair : ∀ {seen}, Fair c op seen := fair_of_none (by simp only [Op.presents, hop])
  refine obeys_ask trivial hfair fun now => obeys_ask trivial hfair fun _ =>
    obeys_pure (ends_ok hfair ?_)
  simp only [Returns, hop]

theorem pollToken_obeys {request : PollTokenRequest} (hop : op.request = .pollToken request) :
    Obeys (Makes c op) (Ends c op) [] (pollToken c op.draws request) := by
  have hfair : ∀ {seen}, Fair c op seen := fair_of_none (by simp only [Op.presents, hop])
  have hpolls : op.polls c = some (c.hashString request.deviceCode) := by
    simp only [Op.polls, hop]
  refine obeys_ask ⟨hpolls, rfl⟩ hfair fun found =>
    obeys_liftExcept_bind (fun _ => ends_error hfair) fun device hdevice => ?_
  obtain rfl := orMissing_eq_ok hdevice
  refine obeys_ask trivial hfair fun now => obeys_ite (fun _ => ?_) fun _ => ?_
  · exact obeys_ask ⟨_, device, hpolls, saw_head.later, rfl⟩ hfair fun _ => ends_error hfair
  cases hstatus : device.status with
  | pending => exact ends_error hfair
  | expired => exact ends_error hfair
  | authorized =>
    refine obeys_liftExcept_bind (fun _ => ends_error hfair) fun userId huser => ?_
    have huser : device.userId = some userId := by
      cases hid : device.userId with
      | none => simp [hid] at huser
      | some id => simpa [hid] using huser
    refine obeys_ask trivial hfair fun found =>
      obeys_liftExcept_bind (fun _ => ends_error hfair) fun user hfound => ?_
    obtain rfl := orMissing_eq_ok hfound
    refine obeys_liftExcept_bind (fun _ => ends_error hfair) fun email _ => ?_
    refine obeys_ask ⟨by simp [Untokened], rfl, rfl, _, device, user, hpolls, saw_head.later.later,
      hstatus, huser, rfl, saw_head⟩ hfair fun _ => ?_
    refine obeys_ask ⟨_, device, hpolls, saw_head.later.later.later, rfl⟩ hfair fun _ =>
      obeys_pure (ends_ok hfair ?_)
    simp only [Returns, hop]

theorem authorizeDevice_obeys {request : AuthorizeDeviceRequest}
    (hop : op.request = .authorizeDevice request) :
    Obeys (Makes c op) (Ends c op) [] (authorizeDevice c request) := by
  have hfair : ∀ {seen}, Fair c op seen := fair_of_none (by simp only [Op.presents, hop])
  refine obeys_ask ⟨request, hop, rfl, rfl⟩ hfair fun device =>
    obeys_liftExcept_bind (fun _ => ends_error hfair) fun _ _ => ?_
  exact obeys_pure (ends_ok hfair (by simp only [Returns, hop]))

theorem deleteAccount_obeys {request : DeleteAccountRequest}
    (hop : op.request = .deleteAccount request) :
    Obeys (Makes c op) (Ends c op) [] (deleteAccount request) := by
  have hfair : ∀ {seen}, Fair c op seen := fair_of_none (by simp only [Op.presents, hop])
  refine obeys_ask hop hfair fun _ => obeys_ask hop hfair fun _ => obeys_pure (ends_ok hfair ?_)
  simp only [Returns, hop]
  exact saw_head.later

theorem addEmail_obeys {request : AddUserEmailRequest} (hop : op.request = .addEmail request) :
    Obeys (Makes c op) (Ends c op) [] (addEmail c op.draws request) := by
  have hfair : ∀ {seen}, Fair c op seen := fair_of_none (by simp only [Op.presents, hop])
  have hmail : ∀ seen, Obeys (Makes c op) (Ends c op) seen
      (mailEmailCode c op.draws request.userId request.email) := by
    intro seen
    refine obeys_ask trivial hfair fun _ => obeys_ask trivial hfair fun now => ?_
    refine obeys_ask trivial hfair fun _ => obeys_ask trivial hfair fun _ =>
      obeys_pure (ends_ok hfair ?_)
    simp only [Returns, hop]
  refine obeys_ask trivial hfair fun taken => obeys_ite (fun _ => ends_error hfair) fun _ => ?_
  refine ⟨trivial, fun r => ?_⟩
  match r with
  | .ok false => exact ends_error hfair
  | .ok true => exact hmail _
  | .error _ => exact hmail _

theorem verifyEmail_obeys {request : VerifyUserEmailRequest}
    (hop : op.request = .verifyEmail request) :
    Obeys (Makes c op) (Ends c op) [] (verifyEmail c request) := by
  have hfair : ∀ {seen}, Fair c op seen := fair_of_none (by simp only [Op.presents, hop])
  refine ⟨trivial, fun r => ?_⟩
  match r with
  | .ok (.success email) => exact obeys_pure (ends_ok hfair (by simp only [Returns, hop]))
  | .ok .attemptsExhausted => exact ends_error hfair
  | .ok .invalid => exact ends_error hfair
  | .ok .noActiveCode => exact ends_error hfair
  | .error (.database e) => cases e <;> exact ends_error hfair
  | .error .cache => exact ends_error hfair
  | .error .email => exact ends_error hfair
  | .error .gitHub => exact ends_error hfair
  | .error .token => exact ends_error hfair

/-- **The services obey the protocol.** -/
theorem program_obeys (c : Setup) (op : Op) :
    Obeys (Makes c op) (Ends c op) [] (program c op) := by
  unfold program
  split
  · exact sendAuthEmail_obeys ‹_›
  · exact verifyAuthCode_obeys ‹_›
  · exact refreshSession_obeys ‹_›
  · exact logout_obeys ‹_›
  · exact exchangeGithubCode_obeys ‹_›
  · exact requestDeviceCode_obeys ‹_›
  · exact pollToken_obeys ‹_›
  · exact authorizeDevice_obeys ‹_›
  · exact deleteAccount_obeys ‹_›
  · exact addEmail_obeys ‹_›
  · exact verifyEmail_obeys ‹_›

end Programs

/-! ### Runs -/

/-- A run of the services under a guard. -/
abbrev Run (c : Setup) (guard : AuthPool → AuthMove → Prop) : AuthPool → Prop :=
  Reach Idle (authNext c) guard

/-- What a run comes to from a state. -/
abbrev After (c : Setup) (guard : AuthPool → AuthMove → Prop) (P₀ : AuthPool) : AuthPool → Prop :=
  Later (authCalls c) (program c) wait guard P₀

/-- A request with what is left of its program. -/
abbrev AuthThread := Thread Op AuthCall AuthCall.Resp AuthCallError AuthError Reply

/-- A call of the log. -/
abbrev Record := Made Op AuthCall AuthCall.Resp AuthCallError Store

variable {c : Setup} {guard : AuthPool → AuthMove → Prop} {P P₀ : AuthPool}

theorem idle_empty {P : AuthPool} (h : Idle P) : P.sys.log = [] ∧ P.threads = [] := by
  obtain ⟨now, rfl⟩ := h
  exact ⟨rfl, rfl⟩

/-- **Every call of a run obeys the protocol.** -/
theorem auth_obeyed (hP : Run c guard P) : Obeyed (Makes c) (Ends c) P :=
  obeyed_run (fun _ => idle_empty) (program_obeys c) hP

/-- What a move does: nothing, a request arrives, some seconds pass, or a request
makes a call that the protocol allows it and that has an effect. -/
inductive Happens (c : Setup) (P : AuthPool) : AuthMove → AuthPool → Prop where
  | nothing (n : ℕ) (fate : Fate) : Happens c P (.step n fate) P
  | arrival (op : Op) :
      Happens c P (.start op) { P with threads := P.threads ++ [⟨op, program c op⟩] }
  | tick (seconds : ℕ) : Happens c P (.env seconds)
      { P with sys := { P.sys with store := wait seconds P.sys.store } }
  | call (n : ℕ) (fate : Fate) (op : Op) (call : AuthCall)
      (k : Except AuthCallError call.Resp → AuthProg Reply) (s : Store)
      (answer : Except AuthCallError call.Resp)
      (thread : P.threads[n]? = some ⟨op, .call call k⟩)
      (effect : Effect c P.sys.store call s) (makes : Makes c op (seen n P.sys.log) call)
      (ok : ∀ a, answer = .ok a → fate = .answered ∧ exec c call P.sys.store = (.ok a, s))
      (answered : fate = .answered → exec c call P.sys.store = (answer, s)) :
      Happens c P (.step n fate)
        ⟨⟨s, ⟨⟨n, op⟩, P.sys.store, call, answer⟩ :: P.sys.log⟩, P.threads.set n ⟨op, k answer⟩⟩

theorem authNext_happens (hP : Run c guard P) (m : AuthMove) : Happens c P m (authNext c m P) := by
  cases m with
  | start op => exact .arrival op
  | env seconds => exact .tick seconds
  | step n fate =>
    have hmoves : (∃ op call k, P.threads[n]? = some ⟨op, .call call k⟩) ∨
        ∀ fate, authNext c (.step n fate) P = P := atCall_or_done P n
    rcases hmoves with ⟨op, call, k, hn⟩ | hdone
    · have hstep : authNext c (.step n fate) P =
          ⟨(P.sys.perform (authCalls c) ⟨n, op⟩ call fate).2,
            P.threads.set n ⟨op, k (P.sys.perform (authCalls c) ⟨n, op⟩ call fate).1⟩⟩ :=
        next_step hn
      rw [hstep]
      refine .call n fate op call k (P.sys.perform (authCalls c) ⟨n, op⟩ call fate).2.store _ hn
        perform_effect ((auth_obeyed hP).rests n _ hn).1 (fun a ha => ?_) (by rintro rfl; rfl)
      have ha : (P.sys.perform (authCalls c) ⟨n, op⟩ call fate).1 = .ok a := ha
      obtain ⟨rfl, hexec⟩ := perform_ok ha
      exact ⟨rfl, Prod.ext hexec rfl⟩
    · have hstay : authNext c (.step n fate) P = P := hdone fate
      rw [hstay]
      exact .nothing n fate

/-- **Induction on a run** by what its moves do. -/
theorem Run.happening {motive : ∀ P, Run c guard P → Prop}
    (start : ∀ {P} (hidle : Idle P), motive P (.start hidle))
    (next : ∀ {P m P'} (hP : Run c guard P) (hP' : Run c guard P'), guard P m → Happens c P m P' →
      motive P hP → motive P' hP') (hP : Run c guard P) : motive P hP := by
  induction hP with
  | start hidle => exact start hidle
  | next m hP hg ih => exact next hP (.next m hP hg) hg (authNext_happens hP m) ih

/-- The request was answered `a` to the call in `P₀`, which left `P₁`, on the way
to `P`. -/
abbrev Answered (c : Setup) (guard : AuthPool → AuthMove → Prop) (caller : Caller Op)
    (call : AuthCall) (a : call.Resp) (P₀ P₁ P : AuthPool) : Prop :=
  Moment (authCalls c) (program c) wait Idle guard caller call a P₀ P₁ P

theorem Saw.moment {n : ℕ} {call : AuthCall} {a : call.Resp} (hP : Run c guard P)
    (hs : Saw (seen n P.sys.log) call a) :
    ∃ op P₀ P₁, Answered c guard ⟨n, op⟩ call a P₀ P₁ P := by
  refine Reach.moment_of_seen (fun P hidle => ?_) hP hs
  rw [(idle_empty hidle).1]
  exact List.not_mem_nil

/-- What a request that came after a state has been answered, it was answered after
the state. -/
theorem Saw.moment_after {guard₀ : AuthPool → AuthMove → Prop} {n : ℕ} {call : AuthCall}
    {a : call.Resp} (hP₀ : Run c guard₀ P₀) (hP : After c guard P₀ P)
    (hn : P₀.threads.length ≤ n) (hs : Saw (seen n P.sys.log) call a) :
    ∃ op P₁ P₂, Moment (authCalls c) (program c) wait (fun P => P = P₀) guard ⟨n, op⟩ call a
      P₁ P₂ P := by
  refine Reach.moment_of_seen (fun P hstart => ?_) hP hs
  rw [hstart, (auth_obeyed hP₀).seen_eq_nil hn]
  exact List.not_mem_nil

/-- What a request has called, the protocol allowed it then. -/
theorem makes_of_seen (hP : Run c guard P) {n : ℕ} {call : AuthCall}
    {r : Except AuthCallError call.Resp} (hs : (⟨call, r⟩ : AuthEvent) ∈ seen n P.sys.log) :
    ∃ t older, P.threads[n]? = some t ∧ older <:+ P.sys.log ∧
      Makes c t.op (seen n older) call := by
  obtain ⟨⟨⟨j, op⟩, before, call', answer⟩, hm, rfl, hevent⟩ := mem_seen.mp hs
  have hevent : (⟨call', answer⟩ : AuthEvent) = ⟨call, r⟩ := hevent
  cases hevent
  obtain ⟨newer, older, heq⟩ := List.append_of_mem hm
  have hsuffix : ⟨⟨j, op⟩, before, call, r⟩ :: older <:+ P.sys.log := ⟨newer, heq.symm⟩
  obtain ⟨t, ht, hop⟩ := (auth_obeyed hP).callers _ hm
  refine ⟨t, older, ht, (List.suffix_cons _ _).trans hsuffix, ?_⟩
  rw [hop]
  exact (auth_obeyed hP).calls _ older hsuffix

/-- The sessions of a state are those of every later one. -/
theorem lasts_after (hP : After c guard P₀ P) : Lasts P₀.sys.store P.sys.store :=
  Later.le hP Lasts.refl Lasts.trans (fun _ _ => exec_effect.lasts) fun _ _ => lasts_wait

/-- A session that a request has found is still there. -/
theorem Saw.session (hP : Run c guard P) {n : ℕ} {hash : String} {session : Session}
    (hs : Saw (seen n P.sys.log) (.getSessionByRefreshHash hash) (some session)) :
    ∃ r, P.sys.store.sessions.get? hash = some r ∧ r.id = session.id ∧
      r.userId = session.userId ∧ r.refreshTokenFamily = session.refreshTokenFamily ∧
      r.expiresAt = session.expiresAt ∧
      (session.revokedAt.isSome = true → r.revokedAt.isSome = true) := by
  obtain ⟨op, P₀, P₁, hm⟩ := hs.moment hP
  have hfound : P₀.sys.store.sessions.get? hash = some session := Except.ok.inj hm.exec
  have hlasts := lasts_after hm.later
  rw [hm.sys] at hlasts
  exact hlasts hash session hfound

/-! ### Examples -/

/-- The setup of the examples: nothing is hashed, ids are drawn in order, and
GitHub takes a code for the address. -/
def plainSetup : Setup where
  hashString := id
  drawId n := Fin.ofNat _ n
  verifyOauthState _ _ := true
  exchangeCode code := .ok code
  getUserEmails token := .ok [⟨token, true, true⟩]

/-- The services before the first request, at the time 0. -/
def idlePool : AuthPool := ⟨⟨.initial 0, []⟩, []⟩

theorem idle_idlePool : Idle idlePool := ⟨0, rfl⟩

/-- The calls of a request, all answered. -/
def calls (n k : ℕ) : List AuthMove := List.replicate k (.step n .answered)

/-- A request that arrives as the number `n` and makes `k` calls. -/
def alone (n k : ℕ) (op : Op) : List AuthMove := .start op :: calls n k

/-- A sign-in by GitHub. -/
def signUp (email code : String) (family : Uuid) : Op :=
  ⟨.exchangeGithubCode ⟨email, ""⟩, ⟨code, code, family, code, [email]⟩⟩

/-- A refresh that draws the replacement `code`. -/
def refreshing (token code : String) : Op :=
  ⟨.refreshSession ⟨token⟩, ⟨code, code, 0, code, []⟩⟩

/-- A logout. -/
def loggingOut (token : String) : Op := ⟨.logout ⟨token⟩, ⟨"", "", 0, "", []⟩⟩

end Auth
end Gitdot
