/-
# Revoked families

A family is swept when reuse of one of its tokens revokes all its sessions, or
a logout revokes the only one that was not. No session of it is unrevoked from
then on if no refresh inserts one that began before (`no_resurrection`): such
a refresh has read its session as not revoked and inserts the replacement
after the sweep. And no refresh that begins later returns tokens, if in
addition the grace cache has no live entry for a token presented to it
(`revoked_stays_revoked`): a replay is answered from the entry alone, whatever
has become of the replacement.

Key definitions: `Sweeps`, `Swept`, `SweptSince`, `Revoked`,
`InsertsBeforeSweep`, `ReplaysUnswept`.
Key theorems: `no_resurrection`, `revoked_stays_revoked`.
-/
import Gitdot.Auth.Families

namespace Gitdot
namespace Auth

open Lib Prog

variable {c : Setup} {P P₀ : AuthPool} {family : Uuid}

/-! ### Sweeps -/

/-- The request is a logout. -/
def Op.logsOut (op : Op) : Bool :=
  match op.request with
  | .logout _ => true
  | _ => false

/-- The record revokes the family: all of it on reuse, or by a logout the only
session of it that is not revoked. -/
def Sweeps (family : Uuid) (m : Record) : Prop :=
  m.answer.isOk = true ∧ (m.call = .revokeSessionsByFamily family ∨
    m.caller.op.logsOut = true ∧ ∃ r ∈ m.before.sessions.rows, m.call = .revokeSession r.id ∧
      r.refreshTokenFamily = family ∧ r.revokedAt = none ∧
      ∀ q ∈ m.before.sessions.rows, q.refreshTokenFamily = family → q.revokedAt = none → q = r)

instance {m : Record} : Decidable (Sweeps family m) := inferInstanceAs (Decidable (_ ∧ _))

/-- The family has been swept. -/
def Swept (family : Uuid) (log : List Record) : Prop := ∃ m ∈ log, Sweeps family m

instance {log : List Record} : Decidable (Swept family log) :=
  inferInstanceAs (Decidable (∃ m ∈ log, _))

/-- The request has made a call. -/
def Begun (n : ℕ) (log : List Record) : Prop := ∃ m ∈ log, m.caller.number = n

instance {n : ℕ} {log : List Record} : Decidable (Begun n log) :=
  inferInstanceAs (Decidable (∃ m ∈ log, _))

/-- The family has been swept since the request began. -/
def SweptSince (n : ℕ) (family : Uuid) : List Record → Prop
  | [] => False
  | m :: older => Sweeps family m ∧ Begun n older ∨ SweptSince n family older

/-- The family had been swept before the request began. -/
def SweptBefore (n : ℕ) (family : Uuid) : List Record → Prop
  | [] => False
  | m :: older => Sweeps family m ∧ ¬ Begun n older ∨ SweptBefore n family older

instance decidableSweptSince {n : ℕ} {family : Uuid} :
    (log : List Record) → Decidable (SweptSince n family log)
  | [] => .isFalse id
  | _ :: older => @instDecidableOr _ _ _ (decidableSweptSince older)

instance decidableSweptBefore {n : ℕ} {family : Uuid} :
    (log : List Record) → Decidable (SweptBefore n family log)
  | [] => .isFalse id
  | _ :: older => @instDecidableOr _ _ _ (decidableSweptBefore older)

/-- Every session of the family is revoked. -/
def Revoked (family : Uuid) (s : Store) : Prop :=
  ∀ r ∈ s.sessions.rows, r.refreshTokenFamily = family → r.revokedAt.isSome = true

instance {s : Store} : Decidable (Revoked family s) :=
  inferInstanceAs (Decidable (∀ r ∈ s.sessions.rows, _))

/-! ### Guards -/

/-- The family that a call inserts a session of. -/
def AuthCall.insertsInto : AuthCall → Option Uuid
  | .createSession _ _ family _ => some family
  | _ => none

/-- A session is inserted only if its family has not been swept since the
request began. -/
def InsertsBeforeSweep : AuthPool → AuthMove → Prop :=
  OnCalls fun P caller call => ∀ family ∈ call.insertsInto,
    ¬ SweptSince caller.number family P.sys.log

-- not by running through the ids: the family is the one of the call
instance (P : AuthPool) (m : AuthMove) : Decidable (InsertsBeforeSweep P m) :=
  letI : ∀ (P : AuthPool) (caller : Caller Op) (call : AuthCall), Decidable
      (∀ family ∈ call.insertsInto, ¬ SweptSince caller.number family P.sys.log) :=
    fun _ _ call => Option.decidableForallMem call.insertsInto
  inferInstanceAs (Decidable (OnCalls _ P m))

/-- The grace cache is read for a token of a family that had been swept before
the request began only when it has no live entry for it. -/
def ReplaysUnswept : AuthPool → AuthMove → Prop :=
  OnCalls fun P caller call => ∀ oldHash ∈ call.graceKey,
    ∀ r ∈ P.sys.store.sessions.get? oldHash,
      SweptBefore caller.number r.refreshTokenFamily P.sys.log →
        P.sys.store.graceEntry oldHash = none

/-! ### What holds of swept families -/

theorem swept_cons {m : Record} {log : List Record} :
    Swept family (m :: log) ↔ Sweeps family m ∨ Swept family log := by
  simp only [Swept, List.mem_cons, exists_eq_or_imp]

theorem begun_of_seen {n : ℕ} {log : List Record} {e : AuthEvent} (h : e ∈ seen n log) :
    Begun n log := by
  obtain ⟨m, hm, hn, -⟩ := mem_seen.mp h
  exact ⟨m, hm, hn⟩

/-- A swept family has a session; a request that has found a session of it not
revoked began before the last sweep; and its sessions are revoked. -/
structure SweepsHold (P : AuthPool) : Prop where
  inhabited : ∀ family, Swept family P.sys.log →
    ∃ r ∈ P.sys.store.sessions.rows, r.refreshTokenFamily = family
  since : ∀ n oldHash session,
    Saw (seen n P.sys.log) (.getSessionByRefreshHash oldHash) (some session) →
    session.revokedAt = none → Swept session.refreshTokenFamily P.sys.log →
      SweptSince n session.refreshTokenFamily P.sys.log
  revoked : ∀ family, Swept family P.sys.log → Revoked family P.sys.store

theorem lasts_family {s s' : Store} (h : Lasts s s')
    (hr : ∃ r ∈ s.sessions.rows, r.refreshTokenFamily = family) :
    ∃ r ∈ s'.sessions.rows, r.refreshTokenFamily = family := by
  obtain ⟨r, hr, hfamily⟩ := hr
  obtain ⟨r', hr', -, -, hsame, -⟩ := h _ r (Table.get?_key hr)
  exact ⟨r', Table.mem_rows_of_get? hr', hsame.trans hfamily⟩

/-- A sweep revokes the family. -/
theorem revoked_of_sweeps {s s' : Store} {caller : Caller Op} {call : AuthCall}
    {answer : Except AuthCallError call.Resp}
    (hok : ∀ a, answer = .ok a → exec c call s = (.ok a, s'))
    (h : Sweeps family ⟨caller, s, call, answer⟩) : Revoked family s' := by
  obtain ⟨hanswer, hcall⟩ := h
  cases answer with
  | error e => cases hanswer
  | ok a =>
    have hexec := hok a rfl
    rcases hcall with hcall | ⟨-, r₀, hr₀, hcall, hfamily, hlive, honly⟩
    · obtain rfl : call = .revokeSessionsByFamily family := hcall
      obtain rfl : s.revokeSessionsByFamily family = s' := congrArg Prod.snd hexec
      intro r hr hin
      obtain ⟨q, hq, rfl⟩ := List.mem_map.mp hr
      split_ifs at hin ⊢ with hp
      · rfl
      · refine Option.isSome_iff_ne_none.mpr fun hnone => hp ?_
        exact decide_eq_true ⟨hin, hnone⟩
    · obtain rfl : call = .revokeSession r₀.id := hcall
      obtain rfl : s.revokeSession r₀.id = s' := congrArg Prod.snd hexec
      intro r hr hin
      obtain ⟨q, hq, rfl⟩ := List.mem_map.mp hr
      split_ifs at hin ⊢ with hp
      · rfl
      · refine Option.isSome_iff_ne_none.mpr fun hnone => hp ?_
        exact decide_eq_true (congrArg Session.id (honly q hq hin hnone))

/-- The family a sweep is about has a session. -/
theorem Makes.swept {guard : AuthPool → AuthMove → Prop} {n : ℕ} {op : Op} {call : AuthCall}
    {answer : Except AuthCallError call.Resp} (hP : Run c guard P)
    (hmakes : Makes c op (seen n P.sys.log) call)
    (h : Sweeps family ⟨⟨n, op⟩, P.sys.store, call, answer⟩) :
    ∃ r ∈ P.sys.store.sessions.rows, r.refreshTokenFamily = family := by
  rcases h.2 with hcall | ⟨-, r, hr, -, hfamily, -⟩
  · obtain rfl : call = .revokeSessionsByFamily family := hcall
    obtain ⟨oldHash, session, user, hp, rfl⟩ := hmakes
    obtain ⟨r, hr, -, -, hsame, -⟩ := hp.found.session hP
    exact ⟨r, Table.mem_rows_of_get? hr, hsame⟩
  · exact ⟨r, hr, hfamily⟩

/-- A session is not inserted into a swept family. -/
theorem SweepsHold.not_inserted {guard : AuthPool → AuthMove → Prop} {n : ℕ} {op : Op}
    {user : Uuid} {hash : String} {expiresAt : Time} (hS : SweepsHold P) (hP : Run c guard P)
    (hF : FamiliesApart P) {k : Except AuthCallError Unit → AuthProg Reply}
    (hthread : P.threads[n]? = some ⟨op, .call (.createSession user hash family expiresAt) k⟩)
    (hguard : ¬ SweptSince n family P.sys.log) : ¬ Swept family P.sys.log := by
  intro hswept
  obtain ⟨hun, -, ⟨email, u, -, -, hopens⟩ | ⟨oldHash, session, u, entry, hrot, -, -, rfl⟩⟩ :=
    ((auth_obeyed hP).rests n _ hthread).1
  · obtain ⟨r, hr, hfamily⟩ := hS.inhabited family hswept
    exact hF.unopened n _ family hthread hopens hun r hr hfamily
  · exact hguard (hS.since n oldHash session hrot.found hrot.unrevoked hswept)

theorem sweeps_hold (hP : Run c (fun P m => NewFamily P m ∧ InsertsBeforeSweep P m) P) :
    SweepsHold P := by
  induction hP using Run.happening with
  | start hidle =>
    obtain ⟨now, rfl⟩ := hidle
    exact ⟨fun family h => by simp [Swept] at h, fun n k session h => by simp [Saw] at h,
      fun family h => by simp [Swept] at h⟩
  | @next P m P' hP _ hg hhappens ih =>
    have hF := families_apart (fun _ _ h => h.1) hP
    cases hhappens with
    | nothing => exact ih
    | tick => exact ⟨ih.inhabited, ih.since, ih.revoked⟩
    | arrival => exact ⟨ih.inhabited, ih.since, ih.revoked⟩
    | call n fate op call k s answer thread effect makes ok =>
      refine ⟨fun family h => ?_, fun j oldHash session hs hlive h => ?_, fun family h => ?_⟩
      · refine lasts_family effect.lasts ?_
        rcases swept_cons.mp h with h | h
        · exact makes.swept hP h
        · exact ih.inhabited family h
      · rcases mem_seen_cons.mp hs with ⟨rfl, hevent⟩ | hs
        -- it is found now: then it would be revoked
        · have hevent : (⟨call, answer⟩ : AuthEvent) =
              ⟨.getSessionByRefreshHash oldHash, .ok (some session)⟩ := hevent
          cases hevent
          have hfound : P.sys.store.sessions.get? oldHash = some session :=
            Except.ok.inj (congrArg Prod.fst (ok _ rfl).2)
          rcases swept_cons.mp h with ⟨-, h | ⟨-, _, _, h, -⟩⟩ | h
          · cases h
          · cases h
          · have hrevoked := ih.revoked _ h session (Table.mem_rows_of_get? hfound) rfl
            rw [hlive] at hrevoked
            cases hrevoked
        · rcases swept_cons.mp h with h | h
          · exact .inl ⟨h, begun_of_seen hs⟩
          · exact .inr (ih.since j oldHash session hs hlive h)
      · rcases swept_cons.mp h with hnow | hswept
        · exact revoked_of_sweeps (fun a ha => (ok a ha).2) hnow
        · intro r hr hfamily
          rcases effect.session_cases hr with ⟨q, hq, -, -, hsame, hkept⟩ |
            ⟨user, hash, family', expiresAt, rfl, rfl⟩
          · exact hkept (ih.revoked family hswept q hq (hsame.trans hfamily))
          · obtain rfl : family' = family := hfamily
            exact absurd hswept (ih.not_inserted hP hF thread (hg.2.of_thread thread _ rfl))

/-- **No resurrection.** -/
theorem no_resurrection (hP : Run c (fun P m => NewFamily P m ∧ InsertsBeforeSweep P m) P)
    (hswept : Swept family P.sys.log) : Revoked family P.sys.store :=
  (sweeps_hold hP).revoked family hswept

/-- `t0` is rotated to `t1`, and `t1` is logged out. -/
def loggedOut : AuthPool :=
  play (authNext plainSetup)
    (alone 0 9 (signUp "a@x" "t0" 1) ++ alone 1 8 (refreshing "t0" "t1") ++ alone 2 2 (loggingOut "t1"))
    idlePool

theorem no_resurrection_loggedOut : Revoked 1 loggedOut.sys.store :=
  no_resurrection (c := plainSetup) (reach_play (.start idle_idlePool) (by decide +kernel))
    (by decide +kernel)

/-- A rotation of `t1` has revoked its session when `t0` is presented again after
the grace window; then it inserts that of `t2`. -/
def resurrected : AuthPool :=
  play (authNext plainSetup)
    (alone 0 9 (signUp "a@x" "t0" 1) ++ alone 1 8 (refreshing "t0" "t1") ++ .env 700 ::
      .start (refreshing "t1" "t2") :: calls 2 7 ++ alone 3 6 (refreshing "t0" "t3") ++ calls 2 1)
    idlePool

theorem not_no_resurrection :
    ¬ ∀ P, Run plainSetup NewFamily P → ∀ family, Swept family P.sys.log →
      Revoked family P.sys.store := by
  intro h
  have hrevoked := h resurrected (reach_play (.start idle_idlePool) (by decide +kernel)) 1
    (by decide +kernel)
  exact absurd hrevoked (by decide +kernel)

/-! ### Refreshes that begin later -/

/-- What is asked of a run that keeps revoked logins revoked. -/
def KeepsRevoked (P : AuthPool) (m : AuthMove) : Prop :=
  (NewFamily P m ∧ InsertsBeforeSweep P m) ∧ ReplaysUnswept P m

instance (P : AuthPool) (m : AuthMove) : Decidable (ReplaysUnswept P m) :=
  inferInstanceAs (Decidable (OnCalls _ P m))

instance (P : AuthPool) (m : AuthMove) : Decidable (KeepsRevoked P m) :=
  inferInstanceAs (Decidable (_ ∧ _))

/-- A call of a request that came after `P₀` was made after `P₀`. -/
theorem log_suffix_of_later {guard : AuthPool → AuthMove → Prop} {n : ℕ} {op : Op}
    {call : AuthCall} {a : call.Resp} {P₁ P₂ : AuthPool} (hP₀ : Run c guard P₀)
    (hP : After c guard P₀ P) (hm : Answered c guard ⟨n, op⟩ call a P₁ P₂ P)
    (hn : P₀.threads.length ≤ n) : P₀.sys.log <:+ P₁.sys.log := by
  have hlater : P₂.sys.log <:+ P.sys.log := hm.later.log_suffix
  rw [hm.sys] at hlater
  rcases List.suffix_or_suffix_of_suffix (Later.log_suffix hP) hlater with h | h
  · rcases List.suffix_cons_iff.mp h with heq | h
    · have hlt := (auth_obeyed hP₀).number_lt (m := ⟨⟨n, op⟩, P₁.sys.store, call, .ok a⟩)
        (by rw [heq]; exact List.mem_cons_self)
      exact absurd hlt (Nat.not_lt.mpr hn)
    · exact h
  · have hlt := (auth_obeyed hP₀).number_lt (h.subset List.mem_cons_self)
    exact absurd hlt (Nat.not_lt.mpr hn)

theorem Swept.of_suffix {log log' : List Record} (h : Swept family log) (hs : log <:+ log') :
    Swept family log' := by
  obtain ⟨m, hm, hsweeps⟩ := h
  exact ⟨m, hs.subset hm, hsweeps⟩

/-- A sweep of before the request arrived was before it began. -/
theorem sweptBefore_of_suffix {n : ℕ} : ∀ {log old : List Record}, old <:+ log →
    Swept family old → ¬ Begun n old → SweptBefore n family log
  | [], old, hs, ⟨m, hm, _⟩, _ => by
    rw [List.suffix_nil.mp hs] at hm
    cases hm
  | m :: log, old, hs, hswept, hbegun => by
    rcases List.suffix_cons_iff.mp hs with rfl | hs
    · rcases swept_cons.mp hswept with hnow | hold
      · refine .inl ⟨hnow, fun ⟨m', hm', hn⟩ => hbegun ⟨m', List.mem_cons_of_mem _ hm', hn⟩⟩
      · exact .inr (sweptBefore_of_suffix (List.suffix_refl _) hold fun ⟨m', hm', hn⟩ =>
          hbegun ⟨m', List.mem_cons_of_mem _ hm', hn⟩)
    · exact .inr (sweptBefore_of_suffix hs hswept hbegun)

/-- A refresh that arrives after a family is swept and returns does not present
a token of the family. -/
theorem revoked_stays_revoked (hP₀ : Run c KeepsRevoked P₀) (hswept : Swept family P₀.sys.log)
    (hP : After c KeepsRevoked P₀ P) {n : ℕ} (hn : P₀.threads.length ≤ n) {op : Op}
    {request : RefreshSessionRequest} {reply : Reply} (hresult : P.result n = some (op, .ok reply))
    (hop : op.request = .refreshSession request) {r : Session}
    (hr : P.sys.store.sessions.get? (c.hashString request.refreshToken) = some r) :
    r.refreshTokenFamily ≠ family := by
  rintro rfl
  have hrun : Run c KeepsRevoked P := hP₀.trans hP
  have hends : Returns c op (seen n P.sys.log) reply :=
    ((auth_obeyed hrun).rests n _ (result_ok.mp hresult)).2 _ rfl
  simp only [Returns, hop] at hends
  obtain ⟨tokens, session, user, -, hp, hcase⟩ := hends
  obtain ⟨r', hr', -, -, hfamily, -⟩ := hp.found.session hrun
  obtain rfl := Option.some.inj (hr.symm.trans hr')
  have hnone : ¬ Begun n P₀.sys.log := by
    rintro ⟨m, hm, hmn⟩
    exact absurd ((auth_obeyed hP₀).number_lt hm) (Nat.not_lt.mpr (hmn ▸ hn))
  rcases hcase with ⟨grace, hgrace, -⟩ | ⟨entry, expiresAt, hrot, -, -⟩
  -- a replay: the cache had no entry for it
  · obtain ⟨op', P₁, P₂, hm⟩ := hgrace.moment hrun
    obtain ⟨k, hk⟩ := hm.thread
    obtain ⟨session', user', hp'⟩ := ((auth_obeyed hm.reach).rests n _ hk).1
    obtain ⟨r₁, hr₁, -⟩ := hp'.found.session hm.reach
    obtain ⟨r₂, hr₂, -, -, hsame, -⟩ := lasts_after hm.later _ r₁ (by rw [hm.sys]; exact hr₁)
    obtain rfl := Option.some.inj (hr₂.symm.trans hr)
    have hbefore : SweptBefore n r₁.refreshTokenFamily P₁.sys.log :=
      sweptBefore_of_suffix (log_suffix_of_later hP₀ hP hm hn) (hsame ▸ hswept) hnone
    have hdead := hm.guarded.2.of_thread hk _ rfl r₁ hr₁ hbefore
    have hlive : P₁.sys.store.graceEntry (c.hashString request.refreshToken) = some grace :=
      Except.ok.inj hm.exec
    rw [hdead] at hlive
    cases hlive
  -- a rotation: it found the session not revoked
  · obtain ⟨op', P₁, P₂, hm⟩ := hrot.found.moment hrun
    have hsuffix := log_suffix_of_later hP₀ hP hm hn
    have hfound : P₁.sys.store.sessions.get? (c.hashString request.refreshToken) = some session :=
      Except.ok.inj hm.exec
    have hrevoked := no_resurrection (hm.reach.mono fun _ _ h => h.1) (hswept.of_suffix hsuffix)
      session (Table.mem_rows_of_get? hfound) hfamily.symm
    rw [hrot.unrevoked] at hrevoked
    cases hrevoked

/-- `t0` is logged out while another login of another user goes on. -/
def oneLoggedOut : AuthPool :=
  play (authNext plainSetup)
    (alone 0 9 (signUp "a@x" "t0" 1) ++ alone 1 9 (signUp "b@x" "u0" 2) ++ alone 2 2 (loggingOut "t0"))
    idlePool

/-- The other login is refreshed. -/
def otherRefreshed : AuthPool :=
  play (authNext plainSetup) (alone 3 8 (refreshing "u0" "u1")) oneLoggedOut

theorem revoked_stays_revoked_otherRefreshed :
    ∃ r, otherRefreshed.sys.store.sessions.get? "u0" = some r ∧ r.refreshTokenFamily ≠ 1 := by
  obtain ⟨r, hr⟩ := Option.isSome_iff_exists.mp
    (show (otherRefreshed.sys.store.sessions.get? "u0").isSome = true by decide +kernel)
  have hresult : otherRefreshed.result 3 = some (refreshing "u0" "u1",
      .ok (.tokens ⟨oneLoggedOut.sys.store.generateGitdotJwt 2 "b@x", "u1", accessTokenExpiry,
        refreshTokenExpiry, false⟩)) := by decide +kernel
  exact ⟨r, hr, revoked_stays_revoked (c := plainSetup) (n := 3)
    (reach_play (.start idle_idlePool) (by decide +kernel)) (by decide +kernel)
    (reach_play (.start rfl) (by decide +kernel)) (by decide +kernel) hresult rfl hr⟩

/-- After the logout of `t1`, a refresh with `t0` is answered from the cache. -/
theorem not_revoked_stays_revoked :
    ¬ ∀ P₀ P n op request reply r family, Run plainSetup NewFamily P₀ →
      Swept family P₀.sys.log → After plainSetup NewFamily P₀ P → P₀.threads.length ≤ n →
      P.result n = some (op, .ok reply) → op.request = .refreshSession request →
      P.sys.store.sessions.get? (plainSetup.hashString request.refreshToken) = some r →
        r.refreshTokenFamily ≠ family := by
  intro h
  have hbad := h loggedOut (play (authNext plainSetup) (alone 3 8 (refreshing "t0" "t2")) loggedOut) 3
    (refreshing "t0" "t2") ⟨"t0"⟩
    (.tokens ⟨loggedOut.sys.store.generateGitdotJwt 0 "a@x", "t1", accessTokenExpiry,
      refreshTokenExpiry, false⟩)
    ⟨1, 0, "t0", 1, refreshTokenExpiry, some 0⟩ 1
    (reach_play (.start idle_idlePool) (by decide +kernel)) (by decide +kernel)
    (reach_play (.start rfl) (by decide +kernel)) (by decide +kernel) (by decide +kernel) rfl
    (by decide +kernel)
  exact hbad rfl

end Auth
end Gitdot
