/-
# Rotation is linear

Without failing calls, a rotation that has claimed a token revokes its session
and inserts one session. Call the token spent from then on. A spent token is
revoked, and of the sessions of a family all but one are of spent tokens, so
at most one is not revoked; and whoever presents a token is answered with the
one entry that was ever claimed for it (`rotation_is_linear`).

That a token is claimed once rests on the time to live: no entry may expire
while a refresh is under way that has found the session of its token not
revoked (`KeepsEntries`). It is not enough that a refresh ends before the
entry expires that it has made or seen: one that has seen none claims the
token again (`not_rotation_is_linear`).

Key definitions: `Linear`, `KeepsEntries`, `EndsInTime`, `Spent`, `Chained`.
Key theorems: `chained_run`, `rotation_is_linear`, `not_rotation_is_linear`.
-/
import Gitdot.Auth.Families

namespace Gitdot
namespace Auth

open Lib Prog

variable {c : Setup} {P : AuthPool}

/-! ### The property and its guards -/

/-- At most one session of a family is not revoked, and refreshes with the same
token are answered with the same replacement. -/
structure Linear (P : AuthPool) : Prop where
  oneUnrevoked : ∀ r ∈ P.sys.store.sessions.rows, ∀ q ∈ P.sys.store.sessions.rows,
    r.refreshTokenFamily = q.refreshTokenFamily → r.revokedAt = none → q.revokedAt = none → r = q
  oneReplacement : ∀ n m op op' request request' tokens tokens',
    P.result n = some (op, .ok (.tokens tokens)) → P.result m = some (op', .ok (.tokens tokens')) →
    op.request = .refreshSession request → op'.request = .refreshSession request' →
    request.refreshToken = request'.refreshToken → tokens.refreshToken = tokens'.refreshToken

/-- Calls do not fail from outside. -/
def Answers : AuthMove → Prop
  | .step _ fate => fate = .answered
  | .start _ => True
  | .env _ => True

instance : (m : AuthMove) → Decidable (Answers m)
  | .step _ fate => inferInstanceAs (Decidable (fate = .answered))
  | .start _ => .isTrue trivial
  | .env _ => .isTrue trivial

/-- The tokens whose sessions a request has found not revoked. -/
def foundLive (seen : List AuthEvent) : List String :=
  seen.filterMap fun e => match e with
    | ⟨.getSessionByRefreshHash oldHash, .ok (some session)⟩ =>
      if session.revokedAt = none then some oldHash else none
    | _ => none

/-- The tokens whose grace entries a request has made or seen. -/
def touched (seen : List AuthEvent) : List String :=
  seen.filterMap fun e => match e with
    | ⟨.setNxGrace oldHash _ _, .ok _⟩ => some oldHash
    | ⟨.getGrace oldHash, .ok (some _)⟩ => some oldHash
    | _ => none

/-- The entry of the token does not expire in the next seconds. -/
def Survives (s : Store) (seconds : ℕ) (oldHash : String) : Prop :=
  (s.graceEntry oldHash).isSome = true → ((wait seconds s).graceEntry oldHash).isSome = true

instance {s : Store} {seconds : ℕ} {oldHash : String} : Decidable (Survives s seconds oldHash) :=
  inferInstanceAs (Decidable (_ → _))

/-- No entry expires that a request under way has made or seen. -/
def EndsInTime (P : AuthPool) : AuthMove → Prop
  | .env seconds => ∀ x ∈ P.threads.zipIdx, x.1.inFlight = true →
      ∀ oldHash ∈ touched (seen x.2 P.sys.log), Survives P.sys.store seconds oldHash
  | .start _ => True
  | .step _ _ => True

/-- No entry expires whose token a refresh under way presents and has found not
revoked. -/
def KeepsEntries (c : Setup) (P : AuthPool) : AuthMove → Prop
  | .env seconds => ∀ x ∈ P.threads.zipIdx, x.1.inFlight = true →
      ∀ oldHash ∈ foundLive (seen x.2 P.sys.log), x.1.op.presents c = some oldHash →
        Survives P.sys.store seconds oldHash
  | .start _ => True
  | .step _ _ => True

instance (P : AuthPool) : (m : AuthMove) → Decidable (EndsInTime P m)
  | .env seconds => inferInstanceAs (Decidable (∀ x ∈ P.threads.zipIdx, x.1.inFlight = true →
      ∀ oldHash ∈ touched (seen x.2 P.sys.log), Survives P.sys.store seconds oldHash))
  | .start _ => .isTrue trivial
  | .step _ _ => .isTrue trivial

instance (P : AuthPool) : (m : AuthMove) → Decidable (KeepsEntries c P m)
  | .env seconds => inferInstanceAs (Decidable (∀ x ∈ P.threads.zipIdx, x.1.inFlight = true →
      ∀ oldHash ∈ foundLive (seen x.2 P.sys.log), x.1.op.presents c = some oldHash →
        Survives P.sys.store seconds oldHash))
  | .start _ => .isTrue trivial
  | .step _ _ => .isTrue trivial

/-- What is asked of a run that keeps rotations linear. -/
def KeepsLinear (c : Setup) (P : AuthPool) (m : AuthMove) : Prop :=
  (NewFamily P m ∧ Answers m) ∧ KeepsEntries c P m

instance (P : AuthPool) (m : AuthMove) : Decidable (KeepsLinear c P m) :=
  inferInstanceAs (Decidable (_ ∧ _))

/-! ### Claims -/

/-- The request has claimed the token with the entry. -/
def Claims (log : List Record) (n : ℕ) (oldHash : String) (entry : GraceEntry) : Prop :=
  Saw (seen n log) (.setNxGrace oldHash entry graceWindow) true

/-- The token has been claimed by a request that has gone on to its insert. -/
def Spent (log : List Record) (oldHash : String) : Prop :=
  ∃ n entry, Claims log n oldHash entry ∧ ¬ Unopened (seen n log)

/-- The invariant of linear rotation. -/
structure Chained (c : Setup) (P : AuthPool) : Prop where
  answered : ∀ n id r, (⟨.revokeSession id, r⟩ : AuthEvent) ∈ seen n P.sys.log → r = .ok ()
  once : ∀ n m oldHash entry entry', Claims P.sys.log n oldHash entry →
    Claims P.sys.log m oldHash entry' → n = m ∧ entry = entry'
  cached : ∀ n oldHash entry, Claims P.sys.log n oldHash entry →
    ∃ expiry, P.sys.store.grace oldHash = some (entry, expiry)
  claimed : ∀ oldHash entry expiry, P.sys.store.grace oldHash = some (entry, expiry) →
    ∃ n, Claims P.sys.log n oldHash entry
  ended : ∀ oldHash entry expiry r, P.sys.store.grace oldHash = some (entry, expiry) →
    expiry ≤ P.sys.store.now → P.sys.store.sessions.get? oldHash = some r →
      r.revokedAt.isSome = true
  spent : ∀ oldHash r, Spent P.sys.log oldHash → P.sys.store.sessions.get? oldHash = some r →
    r.revokedAt.isSome = true
  unspent : ∀ r ∈ P.sys.store.sessions.rows, ∀ q ∈ P.sys.store.sessions.rows,
    r.refreshTokenFamily = q.refreshTokenFamily → ¬ Spent P.sys.log r.refreshTokenHash →
      ¬ Spent P.sys.log q.refreshTokenHash → r.refreshTokenHash = q.refreshTokenHash
  current : ∀ n t oldHash session, P.threads[n]? = some t → t.inFlight = true →
    t.op.presents c = some oldHash →
    Saw (seen n P.sys.log) (.getSessionByRefreshHash oldHash) (some session) →
    session.revokedAt = none → P.sys.store.grace oldHash = none ∨
      (P.sys.store.graceEntry oldHash).isSome = true

/-! ### What a claim and a revocation say -/

section Facts

variable {guard : AuthPool → AuthMove → Prop}

theorem mem_foundLive {seen : List AuthEvent} {oldHash : String} {session : Session}
    (hs : Saw seen (.getSessionByRefreshHash oldHash) (some session))
    (hlive : session.revokedAt = none) : oldHash ∈ foundLive seen :=
  List.mem_filterMap.mpr ⟨_, hs, if_pos hlive⟩

/-- A claim is made for the token presented, of a session found not revoked. -/
theorem Claims.found (hP : Run c guard P) {n : ℕ} {oldHash : String} {entry : GraceEntry}
    (h : Claims P.sys.log n oldHash entry) :
    ∃ (t : AuthThread) (session : Session), P.threads[n]? = some t ∧
      t.op.presents c = some oldHash ∧
      Saw (seen n P.sys.log) (.getSessionByRefreshHash oldHash) (some session) ∧
      session.revokedAt = none := by
  obtain ⟨t, older, ht, hsuffix, -, -, -, session, user, hp, hlive⟩ := makes_of_seen hP h
  exact ⟨t, session, ht, hp.presents, mem_seen_of_suffix hp.found hsuffix, hlive⟩

/-- The session of a claimed token is still there. -/
theorem Claims.session (hP : Run c guard P) {n : ℕ} {oldHash : String} {entry : GraceEntry}
    (h : Claims P.sys.log n oldHash entry) :
    ∃ r, P.sys.store.sessions.get? oldHash = some r := by
  obtain ⟨t, session, -, -, hfound, -⟩ := h.found hP
  obtain ⟨r, hr, -⟩ := hfound.session hP
  exact ⟨r, hr⟩

/-- A refresh that has revoked a session has revoked that of its token. -/
theorem revoked_of_presents (hP : Run c guard P) {n : ℕ} {t : AuthThread} {oldHash : String}
    {id : Uuid} (ht : P.threads[n]? = some t) (hpresents : t.op.presents c = some oldHash)
    (hs : Saw (seen n P.sys.log) (.revokeSession id) ()) {r : Session}
    (hr : P.sys.store.sessions.get? oldHash = some r) : r.revokedAt.isSome = true := by
  obtain ⟨op, P₀, P₁, hm⟩ := hs.moment hP
  obtain ⟨k, hk⟩ := hm.thread
  have hop : t.op = op := hm.op_eq ht
  rcases ((auth_obeyed hm.reach).rests n _ hk).1 with
    ⟨oldHash', session, user, entry, hrot, rfl⟩ | ⟨request, session, hlogout, -, -⟩
  · have hsame : op.presents c = some oldHash' := hrot.presents
    obtain rfl := Option.some.inj (hsame.symm.trans (hop ▸ hpresents))
    obtain ⟨r₀, hr₀, hid, -⟩ := hrot.found.session hm.reach
    have hr₁ : P₁.sys.store.sessions.get? oldHash' =
        some { r₀ with revokedAt := some P₀.sys.store.now } := by
      rw [hm.sys]
      show (P₀.sys.store.revoke _).sessions.get? oldHash' = _
      rw [get?_revoke, hr₀, Option.map_some, if_pos (decide_eq_true hid)]
    obtain ⟨r', hr', -, -, -, -, hkept⟩ := lasts_after hm.later _ _ hr₁
    obtain rfl := Option.some.inj (hr'.symm.trans hr)
    exact hkept rfl
  · have hlogout : op.request = .logout request := hlogout
    rw [hop] at hpresents
    simp [Op.presents, hlogout] at hpresents

/-- A refresh under way or done: once done, the session of the token it claimed is
revoked. -/
theorem Chained.revoked_of_done (hP : Run c guard P) (hI : Chained c P) {n : ℕ} {t : AuthThread}
    {oldHash : String} {entry : GraceEntry} (ht : P.threads[n]? = some t)
    (hclaim : Claims P.sys.log n oldHash entry) (hdone : t.inFlight ≠ true) {r : Session}
    (hr : P.sys.store.sessions.get? oldHash = some r) : r.revokedAt.isSome = true := by
  obtain ⟨t', session, ht', hpresents, -, -⟩ := hclaim.found hP
  obtain rfl := Option.some.inj (ht.symm.trans ht')
  have hobeys := (auth_obeyed hP).rests n t ht
  have hsettled : Settled (seen n P.sys.log) := by
    have hne : t.op.presents c ≠ none := by simp [hpresents]
    cases hrest : t.rest with
    | ret a =>
      rw [hrest] at hobeys
      exact hobeys.1 hne
    | fail e =>
      rw [hrest] at hobeys
      exact hobeys.1 hne
    | call call k => exact absurd (by simp [Thread.inFlight, hrest]) hdone
  obtain ⟨id, r', hrevoked⟩ := hsettled _ _ _ hclaim
  obtain rfl := hI.answered n id r' hrevoked
  exact revoked_of_presents hP ht hpresents hrevoked hr

end Facts

/-! ### The invariant is kept -/

theorem graceEntry_congr {s s' : Store} {oldHash : String} (hgrace : s'.grace oldHash = s.grace oldHash)
    (hnow : s'.now = s.now) : s'.graceEntry oldHash = s.graceEntry oldHash := by
  unfold Store.graceEntry
  rw [hgrace, hnow]

/-- Some seconds pass. -/
theorem Chained.tick (hP : Run c (KeepsLinear c) P) (hI : Chained c P) {seconds : ℕ}
    (hkeeps : KeepsEntries c P (.env seconds)) :
    Chained c { P with sys := { P.sys with store := wait seconds P.sys.store } } := by
  have hsurvives : ∀ n t oldHash session, P.threads[n]? = some t → t.inFlight = true →
      t.op.presents c = some oldHash →
      Saw (seen n P.sys.log) (.getSessionByRefreshHash oldHash) (some session) →
      session.revokedAt = none → Survives P.sys.store seconds oldHash := by
    intro n t oldHash session ht hflight hpresents hfound hlive
    exact hkeeps (t, n) (List.mem_zipIdx_iff_getElem?.mpr ht) hflight oldHash
      (mem_foundLive hfound hlive) hpresents
  refine { hI with ended := ?_, current := ?_ }
  · intro oldHash entry expiry r hgrace hexpired hr
    by_cases hold : expiry ≤ P.sys.store.now
    · exact hI.ended oldHash entry expiry r hgrace hold hr
    -- it expires now: whoever has claimed the token is done
    · obtain ⟨n, hclaim⟩ := hI.claimed oldHash entry expiry hgrace
      obtain ⟨t, session, ht, hpresents, hfound, hlive⟩ := hclaim.found hP
      refine hI.revoked_of_done hP ht hclaim (fun hflight => ?_) hr
      have hsome := hsurvives n t oldHash session ht hflight hpresents hfound hlive
        (Option.isSome_iff_exists.mpr ⟨entry, graceEntry_eq_some.mpr
          ⟨expiry, hgrace, Nat.lt_of_not_le hold⟩⟩)
      obtain ⟨entry', hentry'⟩ := Option.isSome_iff_exists.mp hsome
      obtain ⟨expiry', hgrace', hnow⟩ := graceEntry_eq_some.mp hentry'
      have heq : P.sys.store.grace oldHash = some (entry', expiry') := hgrace'
      obtain ⟨-, rfl⟩ := Prod.mk.inj (Option.some.inj (hgrace.symm.trans heq))
      exact absurd hexpired (Nat.not_le.mpr hnow)
  · intro n t oldHash session ht hflight hpresents hfound hlive
    rcases hI.current n t oldHash session ht hflight hpresents hfound hlive with hnone | hsome
    · exact .inl hnone
    · exact .inr (hsurvives n t oldHash session ht hflight hpresents hfound hlive hsome)

section Call

variable {n : ℕ} {op : Op} {call : AuthCall} {k : Except AuthCallError call.Resp → AuthProg Reply}
  {s : Store} {answer : Except AuthCallError call.Resp}

/-- The log after the call. -/
abbrev logged (P : AuthPool) (n : ℕ) (op : Op) (call : AuthCall)
    (answer : Except AuthCallError call.Resp) : List Record :=
  ⟨⟨n, op⟩, P.sys.store, call, answer⟩ :: P.sys.log

/-- A call that does not claim leaves the claims; one that does claims a token that
had no entry, for a request that has not inserted. -/
def ClaimStep (P : AuthPool) (n : ℕ) (op : Op) (call : AuthCall)
    (answer : Except AuthCallError call.Resp) (s : Store) : Prop :=
  (s.grace = P.sys.store.grace ∧ ∀ m oldHash entry,
    Claims (logged P n op call answer) m oldHash entry → Claims P.sys.log m oldHash entry) ∨
  ∃ oldHash entry, call = .setNxGrace oldHash entry graceWindow ∧
    P.sys.store.grace oldHash = none ∧ Unopened (seen n P.sys.log) ∧
    s = { P.sys.store with
      grace := Function.update P.sys.store.grace oldHash
        (some (entry, P.sys.store.now + graceWindow)) } ∧
    Claims (logged P n op call answer) n oldHash entry ∧
    ∀ m oldHash' entry', Claims (logged P n op call answer) m oldHash' entry' →
      Claims P.sys.log m oldHash' entry' ∨ m = n ∧ oldHash' = oldHash ∧ entry' = entry

theorem Chained.claim_step (hI : Chained c P) (thread : P.threads[n]? = some ⟨op, .call call k⟩)
    (makes : Makes c op (seen n P.sys.log) call) (effect : Effect c P.sys.store call s)
    (hexec : exec c call P.sys.store = (answer, s)) : ClaimStep P n op call answer s := by
  by_cases hcall : ∃ oldHash entry ttl, call = .setNxGrace oldHash entry ttl
  · obtain ⟨oldHash, entry, ttl, rfl⟩ := hcall
    obtain ⟨hun, rfl, -, session, user, hp, hlive⟩ := makes
    rcases setNxGrace_cases P.sys.store oldHash entry graceWindow with hlost | ⟨hfree, hwon⟩
    · have heq : ((.ok false, P.sys.store) : Except AuthCallError Bool × Store) = (answer, s) := by
        rw [← hexec]
        exact congrArg (fun out => (Except.ok out.1, out.2)) hlost.symm
      obtain ⟨rfl, rfl⟩ := Prod.mk.inj heq
      refine .inl ⟨rfl, fun m oldHash' entry' h => ?_⟩
      rcases mem_seen_cons.mp h with ⟨-, hevent⟩ | h
      · cases hevent
      · exact h
    · have heq : ((.ok true, { P.sys.store with
            grace := Function.update P.sys.store.grace oldHash
              (some (entry, P.sys.store.now + graceWindow)) }) :
          Except AuthCallError Bool × Store) = (answer, s) := by
        rw [← hexec]
        exact congrArg (fun out => (Except.ok out.1, out.2)) hwon.symm
      obtain ⟨rfl, rfl⟩ := Prod.mk.inj heq
      have hnone : P.sys.store.grace oldHash = none := by
        rcases hI.current n _ oldHash session thread rfl hp.presents hp.found hlive with
          hnone | hsome
        · exact hnone
        · rw [hfree] at hsome
          cases hsome
      refine .inr ⟨oldHash, entry, rfl, hnone, hun, rfl, mem_seen_cons.mpr (.inl ⟨rfl, rfl⟩),
        fun m oldHash' entry' h => ?_⟩
      rcases mem_seen_cons.mp h with ⟨rfl, hevent⟩ | h
      · obtain ⟨rfl, rfl, -⟩ := AuthCall.setNxGrace.inj (congrArg Sigma.fst hevent)
        exact .inr ⟨rfl, rfl, rfl⟩
      · exact .inl h
  · refine .inl ⟨?_, fun m oldHash entry h => ?_⟩
    · rcases effect.grace with hgrace | ⟨oldHash, entry, ttl, rfl⟩
      · exact hgrace
      · exact absurd ⟨oldHash, entry, ttl, rfl⟩ hcall
    · rcases mem_seen_cons.mp h with ⟨-, hevent⟩ | h
      · exact absurd ⟨oldHash, entry, _, congrArg Sigma.fst hevent⟩ hcall
      · exact h

/-- Only `create_session` opens a session. -/
theorem unopened_logged (hne : ∀ user hash family expiresAt,
    call ≠ .createSession user hash family expiresAt) {m : ℕ} (h : Unopened (seen m P.sys.log)) :
    Unopened (seen m (logged P n op call answer)) := by
  intro user hash family expiresAt r hmem
  rcases mem_seen_cons.mp hmem with ⟨-, hevent⟩ | hmem
  · exact hne _ _ _ _ (congrArg Sigma.fst hevent)
  · exact h _ _ _ _ _ hmem

/-- What has been opened by another request has been opened before. -/
theorem opened_of_ne {m : ℕ} (hne : m ≠ n) (h : ¬ Unopened (seen m (logged P n op call answer))) :
    ¬ Unopened (seen m P.sys.log) := by
  refine fun hun => h fun user hash family expiresAt r hmem => ?_
  rcases mem_seen_cons.mp hmem with ⟨heq, -⟩ | hmem
  · exact hne heq.symm
  · exact hun _ _ _ _ _ hmem

theorem spent_logged {oldHash : String} (h : Spent P.sys.log oldHash) :
    Spent (logged P n op call answer) oldHash := by
  obtain ⟨m, entry, hclaim, hopened⟩ := h
  refine ⟨m, entry, mem_seen_cons.mpr (.inr hclaim), fun hun => hopened ?_⟩
  exact fun user hash family expiresAt r hmem => hun _ _ _ _ r (mem_seen_cons.mpr (.inr hmem))

/-- A token is spent by a claim and an insert of the same request. -/
theorem Chained.spent_step (hI : Chained c P)
    (thread : P.threads[n]? = some ⟨op, .call call k⟩)
    (makes : Makes c op (seen n P.sys.log) call) (effect : Effect c P.sys.store call s)
    (hexec : exec c call P.sys.store = (answer, s)) {oldHash : String}
    (h : Spent (logged P n op call answer) oldHash) :
    Spent P.sys.log oldHash ∨ ∃ entry user hash family expiresAt,
      Claims P.sys.log n oldHash entry ∧ call = .createSession user hash family expiresAt := by
  obtain ⟨m, entry, hclaim, hopened⟩ := h
  rcases hI.claim_step thread makes effect hexec with ⟨-, hclaims⟩ |
    ⟨oldHash', entry', hcall, -, hun, -, -, hclaims⟩
  · have hold := hclaims m oldHash entry hclaim
    by_cases hcreate : ∃ user hash family expiresAt,
        call = .createSession user hash family expiresAt
    · rcases eq_or_ne m n with rfl | hne
      · obtain ⟨user, hash, family, expiresAt, hcall⟩ := hcreate
        exact .inr ⟨entry, user, hash, family, expiresAt, hold, hcall⟩
      · exact .inl ⟨m, entry, hold, opened_of_ne hne hopened⟩
    · refine .inl ⟨m, entry, hold, fun hun => hopened (unopened_logged ?_ hun)⟩
      exact fun user hash family expiresAt hcall =>
        hcreate ⟨user, hash, family, expiresAt, hcall⟩
  · have hbefore : ¬ Unopened (seen m P.sys.log) := fun hun =>
      hopened (unopened_logged (by simp [hcall]) hun)
    rcases hclaims m oldHash entry hclaim with hold | ⟨rfl, -, -⟩
    · exact .inl ⟨m, entry, hold, hbefore⟩
    · exact absurd hun hbefore

theorem opens_eq_none {oldHash : String} (h : op.presents c = some oldHash) : op.opens = none := by
  unfold Op.presents at h
  unfold Op.opens
  split at h
  · rename_i request hop
    rw [hop]
  · cases h

/-- A session inserted spends the tokens of the others of its family. -/
theorem Chained.insert_spends {guard : AuthPool → AuthMove → Prop} (hP : Run c guard P)
    (hF : FamiliesApart P) (hI : Chained c P) {user : Uuid} {hash : String} {family : Uuid}
    {expiresAt : Time} {k : Except AuthCallError Unit → AuthProg Reply}
    {answer : Except AuthCallError Unit}
    (thread : P.threads[n]? = some ⟨op, .call (.createSession user hash family expiresAt) k⟩)
    (makes : Makes c op (seen n P.sys.log) (.createSession user hash family expiresAt))
    {q : Session} (hq : q ∈ P.sys.store.sessions.rows) (hfamily : q.refreshTokenFamily = family) :
    Spent (logged P n op (.createSession user hash family expiresAt) answer)
      q.refreshTokenHash := by
  obtain ⟨hun, -, ⟨email, u, -, -, hopens⟩ | ⟨oldHash, session, u, entry, hrot, -, -, hsame⟩⟩ :=
    makes
  · exact absurd hfamily (hF.unopened n _ family thread hopens hun q hq)
  · have hspent : Spent (logged P n op (.createSession user hash family expiresAt) answer)
        oldHash := by
      refine ⟨n, entry, mem_seen_cons.mpr (.inr hrot.claimed), fun hun' => ?_⟩
      exact hun' user hash family expiresAt answer (mem_seen_cons.mpr (.inl ⟨rfl, rfl⟩))
    by_cases hold : Spent P.sys.log q.refreshTokenHash
    · exact spent_logged hold
    · have hnew : ¬ Spent P.sys.log oldHash := by
        rintro ⟨m, entry', hclaim, hopened⟩
        obtain ⟨rfl, -⟩ := hI.once m n oldHash entry' entry hclaim hrot.claimed
        exact hopened hun
      obtain ⟨r, hr, -, -, hrf, -⟩ := hrot.found.session hP
      have hkey : r.refreshTokenHash = oldHash := Table.key_of_get? hr
      have heq : r.refreshTokenHash = q.refreshTokenHash :=
        hI.unspent r (Table.mem_rows_of_get? hr) q hq
          (hrf.trans (hsame.symm.trans hfamily.symm)) (hkey ▸ hnew) hold
      rw [← heq, hkey]
      exact hspent

/-- A session known to be revoked is revoked after the call. -/
theorem revoked_after (effect : Effect c P.sys.store call s) {oldHash : String} {r r₀ : Session}
    (hr₀ : P.sys.store.sessions.get? oldHash = some r₀) (hrevoked : r₀.revokedAt.isSome = true)
    (hr : s.sessions.get? oldHash = some r) : r.revokedAt.isSome = true := by
  obtain ⟨r', hr', -, -, -, -, hkept⟩ := effect.lasts oldHash r₀ hr₀
  obtain rfl := Option.some.inj (hr.symm.trans hr')
  exact hkept hrevoked

/-! The parts of the invariant after the call, one by one. -/

theorem Claims.logged {m : ℕ} {oldHash : String} {entry : GraceEntry}
    (h : Claims P.sys.log m oldHash entry) : Claims (logged P n op call answer) m oldHash entry :=
  mem_seen_cons.mpr (.inr h)

theorem Chained.answered_called (hI : Chained c P) (hexec : exec c call P.sys.store = (answer, s))
    {m : ℕ} {id : Uuid} {r : Except AuthCallError Unit}
    (h : (⟨.revokeSession id, r⟩ : AuthEvent) ∈ seen m (logged P n op call answer)) :
    r = .ok () := by
  rcases mem_seen_cons.mp h with ⟨-, hevent⟩ | hmem
  · have hevent : (⟨call, answer⟩ : AuthEvent) = ⟨.revokeSession id, r⟩ := hevent
    cases hevent
    exact (congrArg Prod.fst hexec).symm
  · exact hI.answered m id r hmem

/-- A token that has no entry has not been claimed. -/
theorem Chained.not_claimed (hI : Chained c P) {m : ℕ} {oldHash : String} {entry : GraceEntry}
    (hnone : P.sys.store.grace oldHash = none) : ¬ Claims P.sys.log m oldHash entry := by
  intro hclaim
  obtain ⟨expiry, hgrace⟩ := hI.cached m oldHash entry hclaim
  rw [hnone] at hgrace
  cases hgrace

theorem Chained.once_called (hI : Chained c P) (hstep : ClaimStep P n op call answer s)
    {m m' : ℕ} {oldHash : String} {entry entry' : GraceEntry}
    (h : Claims (logged P n op call answer) m oldHash entry)
    (h' : Claims (logged P n op call answer) m' oldHash entry') : m = m' ∧ entry = entry' := by
  rcases hstep with ⟨-, hclaims⟩ | ⟨oldHash₀, entry₀, -, hnone, -, -, -, hclaims⟩
  · exact hI.once m m' oldHash entry entry' (hclaims _ _ _ h) (hclaims _ _ _ h')
  · rcases hclaims _ _ _ h with hold | ⟨rfl, rfl, rfl⟩ <;>
      rcases hclaims _ _ _ h' with hold' | ⟨rfl, heq, rfl⟩
    · exact hI.once m m' oldHash entry entry' hold hold'
    · exact absurd hold (hI.not_claimed (heq ▸ hnone))
    · exact absurd hold' (hI.not_claimed hnone)
    · exact ⟨rfl, rfl⟩

theorem Chained.cached_called (hI : Chained c P) (hstep : ClaimStep P n op call answer s)
    {m : ℕ} {oldHash : String} {entry : GraceEntry}
    (h : Claims (logged P n op call answer) m oldHash entry) :
    ∃ expiry, s.grace oldHash = some (entry, expiry) := by
  rcases hstep with ⟨hgrace, hclaims⟩ | ⟨oldHash₀, entry₀, -, hnone, -, rfl, -, hclaims⟩
  · rw [hgrace]
    exact hI.cached m oldHash entry (hclaims _ _ _ h)
  · rcases hclaims _ _ _ h with hold | ⟨rfl, rfl, rfl⟩
    · obtain ⟨expiry, hgrace⟩ := hI.cached m oldHash entry hold
      have hne : oldHash ≠ oldHash₀ := fun heq => hI.not_claimed (heq ▸ hnone) hold
      exact ⟨expiry, (Function.update_of_ne hne _ _).trans hgrace⟩
    · exact ⟨_, Function.update_self _ _ _⟩

theorem Chained.claimed_called (hI : Chained c P) (hstep : ClaimStep P n op call answer s)
    {oldHash : String} {entry : GraceEntry} {expiry : Time}
    (hgrace : s.grace oldHash = some (entry, expiry)) :
    ∃ m, Claims (logged P n op call answer) m oldHash entry := by
  rcases hstep with ⟨hsame, -⟩ | ⟨oldHash₀, entry₀, -, hnone, -, rfl, hnew, -⟩
  · obtain ⟨m, hm⟩ := hI.claimed oldHash entry expiry (hsame ▸ hgrace)
    exact ⟨m, hm.logged⟩
  · rcases eq_or_ne oldHash oldHash₀ with rfl | hne
    · have heq := (Function.update_self _ _ _).symm.trans hgrace
      obtain ⟨rfl, -⟩ := Prod.mk.inj (Option.some.inj heq)
      exact ⟨n, hnew⟩
    · obtain ⟨m, hm⟩ := hI.claimed oldHash entry expiry
        ((Function.update_of_ne hne _ _).symm.trans hgrace)
      exact ⟨m, hm.logged⟩

/-- An entry that has expired was there before the call. -/
theorem ClaimStep.expired (hstep : ClaimStep P n op call answer s) {oldHash : String}
    {entry : GraceEntry} {expiry : Time} (hgrace : s.grace oldHash = some (entry, expiry))
    (hexpired : expiry ≤ P.sys.store.now) : P.sys.store.grace oldHash = some (entry, expiry) := by
  rcases hstep with ⟨hsame, -⟩ | ⟨oldHash₀, entry₀, -, hnone, -, rfl, -, -⟩
  · rw [← hsame]
    exact hgrace
  · rcases eq_or_ne oldHash oldHash₀ with rfl | hne
    · have heq := (Function.update_self _ _ _).symm.trans hgrace
      obtain ⟨-, rfl⟩ := Prod.mk.inj (Option.some.inj heq)
      simp [graceWindow] at hexpired
    · exact (Function.update_of_ne hne _ _).symm.trans hgrace

theorem Chained.ended_called (hP : Run c (KeepsLinear c) P) (hI : Chained c P)
    (hstep : ClaimStep P n op call answer s) (effect : Effect c P.sys.store call s)
    {oldHash : String} {entry : GraceEntry} {expiry : Time} {r : Session}
    (hgrace : s.grace oldHash = some (entry, expiry)) (hexpired : expiry ≤ s.now)
    (hr : s.sessions.get? oldHash = some r) : r.revokedAt.isSome = true := by
  rw [effect.now] at hexpired
  have hold := hstep.expired hgrace hexpired
  obtain ⟨m, hclaim⟩ := hI.claimed oldHash entry expiry hold
  obtain ⟨r₀, hr₀⟩ := hclaim.session hP
  exact revoked_after effect hr₀ (hI.ended oldHash entry expiry r₀ hold hexpired hr₀) hr

theorem Chained.spent_called (hP : Run c (KeepsLinear c) P) (hI : Chained c P)
    (thread : P.threads[n]? = some ⟨op, .call call k⟩)
    (makes : Makes c op (seen n P.sys.log) call) (effect : Effect c P.sys.store call s)
    (hexec : exec c call P.sys.store = (answer, s)) {oldHash : String} {r : Session}
    (hspent : Spent (logged P n op call answer) oldHash)
    (hr : s.sessions.get? oldHash = some r) : r.revokedAt.isSome = true := by
  rcases hI.spent_step thread makes effect hexec hspent with
    hold | ⟨entry, user, hash, family, expiresAt, hclaim, rfl⟩
  · obtain ⟨m, entry, hclaim, -⟩ := id hold
    obtain ⟨r₀, hr₀⟩ := hclaim.session hP
    exact revoked_after effect hr₀ (hI.spent oldHash r₀ hold hr₀) hr
  -- it has claimed and inserts now: it has revoked the session in between
  · obtain ⟨r₀, hr₀⟩ := hclaim.session hP
    obtain ⟨t, session, ht, hpresents, -, -⟩ := hclaim.found hP
    obtain rfl := Option.some.inj (thread.symm.trans ht)
    obtain ⟨-, -, ⟨email, u, -, -, hopens⟩ | ⟨oldHash', session', u, entry', -, hrevoked, -⟩⟩ :=
      makes
    · rw [opens_eq_none hpresents] at hopens
      cases hopens
    · exact revoked_after effect hr₀ (revoked_of_presents hP thread hpresents hrevoked hr₀) hr

theorem Chained.unspent_called (hP : Run c (KeepsLinear c) P) (hI : Chained c P)
    (thread : P.threads[n]? = some ⟨op, .call call k⟩)
    (makes : Makes c op (seen n P.sys.log) call) (effect : Effect c P.sys.store call s)
    {r q : Session} (hr : r ∈ s.sessions.rows) (hq : q ∈ s.sessions.rows)
    (hfamily : r.refreshTokenFamily = q.refreshTokenFamily)
    (hnr : ¬ Spent (logged P n op call answer) r.refreshTokenHash)
    (hnq : ¬ Spent (logged P n op call answer) q.refreshTokenHash) :
    r.refreshTokenHash = q.refreshTokenHash := by
  have hF := families_apart (fun _ _ h => h.1.1) hP
  rcases effect.session_cases hr with ⟨r₀, hr₀, -, hrh, hrf, -⟩ |
    ⟨user, hash, family, expiresAt, hcall, hrnew⟩ <;>
  rcases effect.session_cases hq with ⟨q₀, hq₀, -, hqh, hqf, -⟩ |
    ⟨user', hash', family', expiresAt', hcall', hqnew⟩
  · rw [← hrh, ← hqh]
    refine hI.unspent r₀ hr₀ q₀ hq₀ (hrf.trans (hfamily.trans hqf.symm)) (fun h => hnr ?_)
      fun h => hnq ?_
    · exact hrh ▸ spent_logged h
    · exact hqh ▸ spent_logged h
  -- a session that is inserted has spent the tokens of its family
  · subst hcall'
    refine absurd ?_ hnr
    rw [← hrh]
    exact hI.insert_spends hP hF thread makes hr₀ (hrf.trans (hfamily.trans (by rw [hqnew])))
  · subst hcall
    refine absurd ?_ hnq
    rw [← hqh]
    exact hI.insert_spends hP hF thread makes hq₀
      (hqf.trans (hfamily.symm.trans (by rw [hrnew])))
  · obtain ⟨-, rfl, -, -⟩ := AuthCall.createSession.inj (hcall.symm.trans hcall')
    rw [hrnew, hqnew]

/-- Where a session that is not revoked is found, its token has no entry that has
expired: it would have left the session revoked. -/
theorem Chained.current_found (hI : Chained c P) {oldHash : String} {session : Session}
    (hget : P.sys.store.sessions.get? oldHash = some session) (hlive : session.revokedAt = none) :
    P.sys.store.grace oldHash = none ∨ (P.sys.store.graceEntry oldHash).isSome = true := by
  cases hgrace : P.sys.store.grace oldHash with
  | none => exact .inl rfl
  | some x =>
    obtain ⟨entry, expiry⟩ := x
    have hnow : P.sys.store.now < expiry := by
      refine Nat.lt_of_not_le fun hexpired => ?_
      have hrevoked := hI.ended oldHash entry expiry session hgrace hexpired hget
      rw [hlive] at hrevoked
      cases hrevoked
    exact .inr (Option.isSome_iff_exists.mpr
      ⟨entry, graceEntry_eq_some.mpr ⟨expiry, hgrace, hnow⟩⟩)

/-- A call leaves a token without an entry, or gives it one that lasts. -/
theorem ClaimStep.current (hstep : ClaimStep P n op call answer s)
    (effect : Effect c P.sys.store call s) {oldHash : String}
    (hbefore : P.sys.store.grace oldHash = none ∨
      (P.sys.store.graceEntry oldHash).isSome = true) :
    s.grace oldHash = none ∨ (s.graceEntry oldHash).isSome = true := by
  rcases hstep with ⟨hgrace, -⟩ | ⟨oldHash₀, entry₀, -, -, -, hs, -, -⟩
  · rw [hgrace, graceEntry_congr (congrFun hgrace oldHash) effect.now]
    exact hbefore
  · have hgrace : s.grace = Function.update P.sys.store.grace oldHash₀
        (some (entry₀, P.sys.store.now + graceWindow)) := by rw [hs]
    rcases eq_or_ne oldHash oldHash₀ with rfl | hne
    · refine .inr (Option.isSome_iff_exists.mpr ⟨entry₀, graceEntry_eq_some.mpr
        ⟨P.sys.store.now + graceWindow, ?_, ?_⟩⟩)
      · rw [hgrace, Function.update_self]
      · rw [effect.now]
        exact Nat.lt_add_of_pos_right (by decide)
    · have hsame : s.grace oldHash = P.sys.store.grace oldHash := by
        rw [hgrace, Function.update_of_ne hne]
      rw [hsame, graceEntry_congr hsame effect.now]
      exact hbefore

theorem Chained.current_called (hI : Chained c P)
    (thread : P.threads[n]? = some ⟨op, .call call k⟩)
    (hstep : ClaimStep P n op call answer s) (effect : Effect c P.sys.store call s)
    (hexec : exec c call P.sys.store = (answer, s)) {m : ℕ} {t : AuthThread} {oldHash : String}
    {session : Session} (ht : (P.threads.set n ⟨op, k answer⟩)[m]? = some t)
    (hflight : t.inFlight = true) (hpresents : t.op.presents c = some oldHash)
    (hfound : Saw (seen m (logged P n op call answer)) (.getSessionByRefreshHash oldHash)
      (some session))
    (hlive : session.revokedAt = none) :
    s.grace oldHash = none ∨ (s.graceEntry oldHash).isSome = true := by
  refine hstep.current effect ?_
  rcases mem_seen_cons.mp hfound with ⟨rfl, hevent⟩ | hold
  · have hevent : (⟨call, answer⟩ : AuthEvent) =
        ⟨.getSessionByRefreshHash oldHash, .ok (some session)⟩ := hevent
    cases hevent
    have hget : P.sys.store.sessions.get? oldHash = some session :=
      Except.ok.inj (congrArg Prod.fst hexec)
    exact hI.current_found hget hlive
  · rcases (getElem?_step thread).mp ht with ⟨rfl, rfl⟩ | ⟨hne, ht⟩
    · exact hI.current m _ oldHash session thread rfl hpresents hold hlive
    · exact hI.current m t oldHash session ht hflight hpresents hold hlive

/-- A request makes a call. -/
theorem Chained.called (hP : Run c (KeepsLinear c) P) (hI : Chained c P)
    (thread : P.threads[n]? = some ⟨op, .call call k⟩)
    (makes : Makes c op (seen n P.sys.log) call) (effect : Effect c P.sys.store call s)
    (hexec : exec c call P.sys.store = (answer, s)) :
    Chained c ⟨⟨s, logged P n op call answer⟩, P.threads.set n ⟨op, k answer⟩⟩ where
  answered _ _ _ hmem := hI.answered_called hexec hmem
  once _ _ _ _ _ h h' := hI.once_called (hI.claim_step thread makes effect hexec) h h'
  cached _ _ _ h := hI.cached_called (hI.claim_step thread makes effect hexec) h
  claimed _ _ _ hgrace := hI.claimed_called (hI.claim_step thread makes effect hexec) hgrace
  ended _ _ _ _ hgrace hexpired hr :=
    hI.ended_called hP (hI.claim_step thread makes effect hexec) effect hgrace hexpired hr
  spent _ _ hspent hr := hI.spent_called hP thread makes effect hexec hspent hr
  unspent _ hr _ hq hfamily hnr hnq :=
    hI.unspent_called hP thread makes effect hr hq hfamily hnr hnq
  current _ _ _ _ ht hflight hpresents hfound hlive :=
    hI.current_called thread (hI.claim_step thread makes effect hexec) effect hexec ht hflight
      hpresents hfound hlive

end Call

theorem chained_run (hP : Run c (KeepsLinear c) P) : Chained c P := by
  induction hP using Run.happening with
  | start hidle =>
    obtain ⟨now, rfl⟩ := hidle
    exact {
      answered _ _ _ h := absurd h List.not_mem_nil
      once _ _ _ _ _ h := absurd h List.not_mem_nil
      cached _ _ _ h := absurd h List.not_mem_nil
      claimed _ _ _ h := absurd h (Option.some_ne_none _).symm
      ended _ _ _ _ h := absurd h (Option.some_ne_none _).symm
      spent _ _ h := h.elim fun _ h => h.elim fun _ h => absurd h.1 List.not_mem_nil
      unspent _ h := absurd h List.not_mem_nil
      current _ _ _ _ h := absurd h (Option.some_ne_none _).symm }
  | @next P m P' hP _ hg hhappens ih =>
    cases hhappens with
    | nothing => exact ih
    | tick => exact ih.tick hP hg.2
    | arrival op =>
      refine { ih with current := ?_ }
      intro n t oldHash session ht hflight hpresents hfound hlive
      rcases getElem?_start.mp ht with ht | ⟨rfl, rfl⟩
      · exact ih.current n t oldHash session ht hflight hpresents hfound hlive
      · have hnil := (auth_obeyed hP).seen_eq_nil (Nat.le_refl P.threads.length)
        have hfound : Saw (seen P.threads.length P.sys.log)
          (.getSessionByRefreshHash oldHash) (some session) := hfound
        rw [hnil] at hfound
        cases hfound
    | call n fate op call k s answer thread effect makes ok answered =>
      exact ih.called hP thread makes effect (answered hg.1.2)

/-- **Rotation is linear.** -/
theorem rotation_is_linear (hP : Run c (KeepsLinear c) P) : Linear P := by
  have hI := chained_run hP
  have hunspent : ∀ r ∈ P.sys.store.sessions.rows, r.revokedAt = none →
      ¬ Spent P.sys.log r.refreshTokenHash := by
    intro r hr hlive hspent
    have hrevoked := hI.spent _ r hspent (Table.get?_key hr)
    rw [hlive] at hrevoked
    cases hrevoked
  refine ⟨fun r hr q hq hfamily hrl hql => ?_, ?_⟩
  · have hkey := hI.unspent r hr q hq hfamily (hunspent r hr hrl) (hunspent q hq hql)
    have hget : P.sys.store.sessions.get? r.refreshTokenHash = some q := by
      rw [hkey]
      exact Table.get?_key hq
    exact Option.some.inj ((Table.get?_key hr).symm.trans hget)
  -- whatever a refresh returns was claimed for its token
  · have hreplaced : ∀ n op request tokens, P.result n = some (op, .ok (.tokens tokens)) →
        op.request = .refreshSession request →
        ∃ m entry, Claims P.sys.log m (c.hashString request.refreshToken) entry ∧
          entry.refreshToken = tokens.refreshToken := by
      intro n op request tokens hresult hop
      have hends : Returns c op (seen n P.sys.log) (.tokens tokens) :=
        ((auth_obeyed hP).rests n _ (result_ok.mp hresult)).2 _ rfl
      simp only [Returns, hop] at hends
      obtain ⟨_, session, user, heq, -, hcase⟩ := hends
      obtain rfl := Reply.tokens.inj heq
      rcases hcase with ⟨grace, hgrace, htoken⟩ | ⟨entry, expiresAt, hrot, -, htoken⟩
      · obtain ⟨op', P₀, P₁, hm⟩ := hgrace.moment hP
        have hlive : P₀.sys.store.graceEntry (c.hashString request.refreshToken) = some grace :=
          Except.ok.inj hm.exec
        obtain ⟨expiry, hentry, -⟩ := graceEntry_eq_some.mp hlive
        obtain ⟨m, hclaim⟩ := (chained_run hm.reach).claimed _ _ _ hentry
        have hsuffix : P₀.sys.log <:+ P.sys.log := by
          have hlog := hm.later.log_suffix
          rw [hm.sys] at hlog
          exact (List.suffix_cons _ _).trans hlog
        exact ⟨m, grace, mem_seen_of_suffix hclaim hsuffix, htoken.symm⟩
      · exact ⟨n, entry, hrot.claimed, hrot.token.trans htoken.symm⟩
    intro n m op op' request request' tokens tokens' hn hm hop hop' hsame
    obtain ⟨i, entry, hclaim, htoken⟩ := hreplaced n op request tokens hn hop
    obtain ⟨j, entry', hclaim', htoken'⟩ := hreplaced m op' request' tokens' hm hop'
    obtain ⟨-, rfl⟩ := hI.once i j _ entry entry' hclaim (hsame ▸ hclaim')
    exact htoken.symm.trans htoken'

/-- Two refreshes with `t0` race, and the entry expires once both are done. -/
def racedPool : AuthPool :=
  play (authNext plainSetup)
    (alone 0 9 (signUp "a@x" "t0" 1) ++ alone 1 4 (refreshing "t0" "t1") ++
      alone 2 8 (refreshing "t0" "t2") ++ calls 1 4 ++ [.env 700]) idlePool

theorem rotation_is_linear_racedPool : Linear racedPool :=
  rotation_is_linear (c := plainSetup) (reach_play (.start idle_idlePool) (by decide +kernel))

/-- The first refresh has found the session of `t0` not revoked when the second
rotates it, and claims the token once the entry of the second has expired. -/
def claimedTwice : AuthPool :=
  play (authNext plainSetup)
    (alone 0 9 (signUp "a@x" "t0" 1) ++ alone 1 1 (refreshing "t0" "t1") ++
      alone 2 8 (refreshing "t0" "t2") ++ .env 700 :: calls 1 7) idlePool

theorem not_rotation_is_linear :
    ¬ ∀ P, Run plainSetup (fun P m => (NewFamily P m ∧ Answers m) ∧ EndsInTime P m) P →
      Linear P := by
  intro h
  have hlinear := h claimedTwice (reach_play (.start idle_idlePool) (by decide +kernel))
  obtain ⟨r, hr, q, hq, hfamily, hrl, hql, hne⟩ : ∃ r ∈ claimedTwice.sys.store.sessions.rows,
      ∃ q ∈ claimedTwice.sys.store.sessions.rows, r.refreshTokenFamily = q.refreshTokenFamily ∧
        r.revokedAt = none ∧ q.revokedAt = none ∧ r ≠ q := by decide +kernel
  exact hne (hlinear.oneUnrevoked r hr q hq hfamily hrl hql)

end Auth
end Gitdot
