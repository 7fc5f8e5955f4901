/-
# Deleted accounts

An account marked as deleted stays so. Every request that starts a session or
signs an access token has looked its user up and found it not deleted, or has
created it, so none that comes after the deletion of an account does so for
it. A poll does not look: it creates a token for whoever has authorized the
device. If no poll that comes after the deletion finds a device that the user
has authorized, no credential is made for the account (`no_credentials`).

Key definitions: `AccountDeleted`, `AuthCall.credentialFor`, `NoneApproved`.
Key theorems: `no_credentials`, `not_no_credentials`.
-/
import Gitdot.Auth.Devices

namespace Gitdot
namespace Auth

open Lib Prog

variable {c : Setup} {s s' : Store} {call : AuthCall} {P P₀ : AuthPool} {user : Uuid}
  {guard : AuthPool → AuthMove → Prop}

/-! ### Deletion -/

/-- The user is there, marked as deleted. -/
def Store.Deleted (s : Store) (user : Uuid) : Prop :=
  ∃ a, s.users.get? user = some a ∧ a.deletedAt.isSome = true

/-- A deletion of the account has returned, and the user was there to be marked. -/
def AccountDeleted (user : Uuid) (P : AuthPool) : Prop :=
  ∃ n op reply, P.result n = some (op, .ok reply) ∧ op.request = .deleteAccount ⟨user⟩ ∧
    ∀ m ∈ P.sys.log, m.call = .markUserAsDeleted user → (m.before.users.get? user).isSome = true

/-- The user that a call makes a session, an access token or a token for. -/
def AuthCall.credentialFor : AuthCall → Option Uuid
  | .createSession user _ _ _ => some user
  | .generateGitdotJwt user _ => some user
  | .createToken principal _ _ _ => some principal
  | _ => none

/-- No request from the number `k` on finds a device that the user has authorized. -/
def NoneApproved (user : Uuid) (k : ℕ) : AuthPool → AuthMove → Prop :=
  OnCalls fun P caller call => k ≤ caller.number → ∀ h ∈ call.looksUp,
    ∀ d ∈ P.sys.store.getDeviceAuthorization h, d.status = .authorized → d.userId ≠ some user

instance {k : ℕ} (P : AuthPool) (m : AuthMove) : Decidable (NoneApproved user k P m) :=
  inferInstanceAs (Decidable (OnCalls _ P m))

/-- A call leaves the users, inserts one, or marks one as deleted. -/
theorem Effect.users (h : Effect c s call s') :
    s'.users = s.users ∨ (∃ account, s.users.insert? account = some s'.users) ∨
      ∃ id, s'.users = (s.markUserAsDeleted id).users := by
  cases h with
  | signedUp email isVerified provider handles n account users alive inserted =>
    exact .inr (.inl ⟨account, inserted⟩)
  | deleted id => exact .inr (.inr ⟨id, rfl⟩)
  | secondaryVerified => exact .inl (by unfold Store.verifiedRow; split <;> rfl)
  | _ => exact .inl rfl

theorem get?_markUserAsDeleted {id : Uuid} : (s.markUserAsDeleted id).users.get? user =
    if user = id then (s.users.get? id).map fun a =>
      { a with deletedAt := some (a.deletedAt.getD s.now) }
    else s.users.get? user := by
  unfold Store.markUserAsDeleted
  rw [Table.get?_modify]

/-- An account that is marked is deleted. -/
theorem deleted_of_mark (h : (s.users.get? user).isSome = true) :
    (s.markUserAsDeleted user).Deleted user := by
  obtain ⟨a, ha⟩ := Option.isSome_iff_exists.mp h
  refine ⟨{ a with deletedAt := some (a.deletedAt.getD s.now) }, ?_, rfl⟩
  rw [get?_markUserAsDeleted, if_pos rfl, ha]
  rfl

/-- The accounts that one store has as deleted the other has too. -/
def KeepsDeleted (s s' : Store) : Prop := ∀ user, s.Deleted user → s'.Deleted user

theorem Effect.keepsDeleted (h : Effect c s call s') : KeepsDeleted s s' := by
  rintro user ⟨a, ha, hdeleted⟩
  rcases h.users with heq | ⟨account, hins⟩ | ⟨id, heq⟩
  · exact ⟨a, by rw [heq]; exact ha, hdeleted⟩
  · have hne : user ≠ Keyed.key account := by
      rintro rfl
      rw [Table.get?_none_of_insert? hins] at ha
      cases ha
    exact ⟨a, (Table.get?_insert? hins user).trans ((if_neg hne).trans ha), hdeleted⟩
  · rw [Store.Deleted, heq, get?_markUserAsDeleted]
    split_ifs with hid
    · rw [← hid, ha]
      exact ⟨_, rfl, rfl⟩
    · exact ⟨a, ha, hdeleted⟩

/-- An account that is deleted stays so. -/
theorem keepsDeleted_after (hP : After c guard P₀ P) : KeepsDeleted P₀.sys.store P.sys.store :=
  Later.le hP (fun _ _ => id) (fun h h' user hs => h' user (h user hs))
    (fun _ _ => exec_effect.keepsDeleted) fun _ _ _ => id

/-- An account whose deletion has returned is deleted. -/
theorem AccountDeleted.deleted (hP : Run c guard P) (h : AccountDeleted user P) :
    P.sys.store.Deleted user := by
  obtain ⟨n, op, reply, hresult, hop, hthere⟩ := h
  have hreturns : Returns c op (seen n P.sys.log) reply :=
    ((auth_obeyed hP).rests n _ (result_ok.mp hresult)).2 _ rfl
  simp only [Returns, hop] at hreturns
  obtain ⟨op', P₀, P₁, hm⟩ := hreturns.moment hP
  have hsuffix := hm.later.log_suffix
  rw [hm.sys] at hsuffix
  refine keepsDeleted_after hm.later user ?_
  rw [hm.sys]
  exact deleted_of_mark (hthere _ (hsuffix.subset List.mem_cons_self) rfl)

/-! ### Lookups -/

theorem getById_eq_some {id : Uuid} {u : User} (h : s.getById id = some u) :
    u.id = id ∧ ∃ a, s.users.get? id = some a ∧ a.deletedAt = u.deletedAt := by
  obtain ⟨a, ha, rfl⟩ := Option.map_eq_some_iff.mp h
  exact ⟨Table.key_of_get? ha, a, ha, rfl⟩

/-- A user who is found not deleted is not deleted. -/
theorem not_deleted_of_getById {id : Uuid} {u : User} (h : s.getById id = some u)
    (halive : u.deletedAt = none) : ¬ s.Deleted id := by
  rintro ⟨a, ha, hdeleted⟩
  obtain ⟨-, b, hb, heq⟩ := getById_eq_some h
  obtain rfl := Option.some.inj (ha.symm.trans hb)
  rw [heq, halive] at hdeleted
  cases hdeleted

theorem not_deleted_of_primary {email : String} {u : User}
    (h : s.getByPrimaryEmail email = some u) (halive : u.deletedAt = none) : ¬ s.Deleted u.id := by
  obtain ⟨e, -, hfound⟩ := Option.bind_eq_some_iff.mp h
  rw [(getById_eq_some hfound).1]
  exact not_deleted_of_getById hfound halive

/-- A user who is created was not there. -/
theorem get?_of_createUser {email : String} {isVerified : Bool} {provider : AuthProvider} {u : User} :
    ∀ {handles : List String} {s : Store},
      (Store.createUser c email isVerified provider handles s).1 = .ok u →
        s.users.get? u.id = none
  | [], s, h => by cases h
  | handle :: handles, s, h => by
    unfold Store.createUser at h
    cases hins : s.insertUser c email isVerified provider handle with
    | none =>
      rw [hins] at h
      exact get?_of_createUser (s := { s with draws := s.draws + 1 }) h
    | some out =>
      rw [hins] at h
      obtain ⟨account, s'⟩ := out
      obtain rfl := Except.ok.inj h
      unfold Store.insertUser at hins
      split_ifs at hins
      obtain ⟨users, hinserted, heq⟩ := Option.map_eq_some_iff.mp hins
      obtain ⟨rfl, rfl⟩ := Prod.mk.inj heq
      exact Table.get?_none_of_insert? hinserted

/-! ### Credentials -/

section Later

variable {guard₀ : AuthPool → AuthMove → Prop} {n : ℕ}

/-- A request that comes after the account is deleted does not find it otherwise. -/
theorem not_found_after (hP₀ : Run c guard₀ P₀) (hdeleted : P₀.sys.store.Deleted user)
    (hP : After c guard P₀ P) (hn : P₀.threads.length ≤ n) {u : User} {id : Uuid}
    (hs : Saw (seen n P.sys.log) (.getById id) (some u)) (halive : u.deletedAt = none) :
    id ≠ user ∧ u.id ≠ user := by
  obtain ⟨op, P₁, P₂, hm⟩ := hs.moment_after hP₀ hP hn
  have hfound : P₁.sys.store.getById id = some u := Except.ok.inj hm.exec
  have hne : id ≠ user := by
    rintro rfl
    exact not_deleted_of_getById hfound halive (keepsDeleted_after hm.reach _ hdeleted)
  exact ⟨hne, by rwa [(getById_eq_some hfound).1]⟩

theorem SignsIn.mono {op : Op} {seen seen' : List AuthEvent} {email : String} {u : User}
    (h : SignsIn c op seen email u) (hsub : ∀ e ∈ seen, e ∈ seen') : SignsIn c op seen' email u := by
  unfold SignsIn at h ⊢
  split at h
  · obtain ⟨hemail, hfound, halive, hright, hverified⟩ := h
    exact ⟨hemail, hsub _ hfound, halive, hsub _ hright, hsub _ hverified⟩
  · exact h.imp (fun h => ⟨hsub _ h.1, h.2⟩) fun h => ⟨hsub _ h.1, hsub _ h.2⟩
  · exact h.elim

theorem SignsIn.not_deleted (hP₀ : Run c guard₀ P₀) (hdeleted : P₀.sys.store.Deleted user)
    (hP : After c guard P₀ P) (hn : P₀.threads.length ≤ n) {op : Op} {email : String} {u : User}
    (h : SignsIn c op (seen n P.sys.log) email u) : u.id ≠ user := by
  have hprimary : Saw (seen n P.sys.log) (.getByPrimaryEmail email) (some u) →
      u.deletedAt = none → u.id ≠ user := by
    rintro hs halive rfl
    obtain ⟨op', P₁, P₂, hm⟩ := hs.moment_after hP₀ hP hn
    exact not_deleted_of_primary (Except.ok.inj hm.exec) halive
      (keepsDeleted_after hm.reach _ hdeleted)
  unfold SignsIn at h
  split at h
  · exact hprimary (h.1 ▸ h.2.1) h.2.2.1
  · rcases h with ⟨hs, halive⟩ | ⟨-, hcreated⟩
    · exact hprimary hs halive
    -- a user who is created was not there before
    · rintro rfl
      obtain ⟨op', P₁, P₂, hm⟩ := hcreated.moment_after hP₀ hP hn
      obtain ⟨a, ha, -⟩ := keepsDeleted_after hm.reach _ hdeleted
      rw [get?_of_createUser hm.exec] at ha
      cases ha
  · exact h.elim

/-- **No credentials after deletion.** -/
theorem no_credentials (hP₀ : Run c (fun _ _ => True) P₀) (hdeleted : AccountDeleted user P₀)
    (hP : After c (NoneApproved user P₀.threads.length) P₀ P) {m : Record} (hm : m ∈ P.sys.log)
    (hn : P₀.threads.length ≤ m.caller.number) : m.call.credentialFor ≠ some user := by
  have hgone := hdeleted.deleted hP₀
  have hrun : Run c (fun _ _ => True) P := hP₀.trans (hP.mono fun _ _ _ => trivial)
  obtain ⟨newer, older, heq⟩ := List.append_of_mem hm
  have hmakes := (auth_obeyed hrun).calls m older ⟨newer, heq.symm⟩
  have hseen : ∀ e ∈ seen m.caller.number older, e ∈ seen m.caller.number P.sys.log := fun e he =>
    mem_seen_of_suffix he ((List.suffix_cons m older).trans ⟨newer, heq.symm⟩)
  obtain ⟨⟨n, op⟩, before, call, answer⟩ := m
  refine fun hcall => ?_
  cases call with
  | createSession user' hash family expiresAt =>
    obtain rfl := Option.some.inj hcall
    obtain ⟨-, -, ⟨email, u, hin, hu, -⟩ | ⟨oldHash, session, u, entry, hrot, -, hu, -⟩⟩ := hmakes
    · exact (hin.mono hseen).not_deleted hP₀ hgone hP hn hu.symm
    · exact (not_found_after hP₀ hgone hP hn (hseen _ hrot.owner) hrot.alive).1 hu.symm
  | generateGitdotJwt user' username =>
    obtain rfl := Option.some.inj hcall
    obtain ⟨email, u, hin, hu⟩ | ⟨oldHash, session, u, hp, hu⟩ := hmakes
    · exact (hin.mono hseen).not_deleted hP₀ hgone hP hn hu.symm
    · exact (not_found_after hP₀ hgone hP hn (hseen _ hp.owner) hp.alive).2 hu.symm
  | createToken principal clientId tokenHash tokenType =>
    obtain rfl := Option.some.inj hcall
    obtain ⟨-, -, -, h, device, u, -, hfound, hauthorized, hprincipal, -⟩ := hmakes
    obtain ⟨op', P₁, P₂, hm⟩ := Saw.moment_after hP₀ hP hn (hseen _ hfound)
    obtain ⟨k, hk⟩ := hm.thread
    exact hm.guarded.of_thread hk hn h rfl device (Except.ok.inj hm.exec) hauthorized hprincipal
  | _ => cases hcall

end Later

/-- The deletion of an account. -/
def deleting (user : Uuid) : Op := ⟨.deleteAccount ⟨user⟩, ⟨"", "", 0, "", []⟩⟩

/-- A user has signed up and deleted the account. -/
def accountDeleted : AuthPool :=
  play (authNext plainSetup) (alone 0 9 (signUp "a@x" "t0" 1) ++ alone 1 2 (deleting 0)) idlePool

theorem accountDeleted_accountDeleted : AccountDeleted 0 accountDeleted :=
  ⟨1, deleting 0, .done, by decide +kernel, rfl, by decide +kernel⟩

/-- The account's token is refreshed. -/
def refreshedDeleted : AuthPool :=
  play (authNext plainSetup) (alone 2 3 (refreshing "t0" "t1")) accountDeleted

theorem no_credentials_refreshedDeleted :
    ∃ m ∈ refreshedDeleted.sys.log, 2 ≤ m.caller.number ∧ m.call.credentialFor ≠ some 0 := by
  have hlater : ∃ m ∈ refreshedDeleted.sys.log, 2 ≤ m.caller.number := by decide +kernel
  obtain ⟨m, hm, hn⟩ := hlater
  exact ⟨m, hm, hn, no_credentials (c := plainSetup) (reach_play (.start idle_idlePool) guarded_true)
    accountDeleted_accountDeleted (reach_play (.start rfl) (by decide +kernel)) hm hn⟩

/-- A user has authorized a device and deleted the account. -/
def approvedDeleted : AuthPool := play (authNext plainSetup) (alone 3 2 (deleting 0)) authorized

/-- The device is polled then, and gets its token. -/
theorem not_no_credentials :
    ¬ ∀ P₀ P user m, Run plainSetup (fun _ _ => True) P₀ → AccountDeleted user P₀ →
      After plainSetup (fun _ _ => True) P₀ P → m ∈ P.sys.log →
      P₀.threads.length ≤ m.caller.number → m.call.credentialFor = some user →
        m.answer.isOk = false := by
  intro h
  have hdeleted : AccountDeleted 0 approvedDeleted :=
    ⟨3, deleting 0, .done, by decide +kernel, rfl, by decide +kernel⟩
  have hrun : Run plainSetup (fun _ _ => True) approvedDeleted :=
    reach_play (reach_play (.start idle_idlePool) guarded_true) guarded_true
  have hlater : After plainSetup (fun _ _ => True) approvedDeleted
      (play (authNext plainSetup) (alone 4 5 (polling "d" "k")) approvedDeleted) :=
    reach_play (.start rfl) guarded_true
  have hbad := fun m hm hn hcall => h _ _ 0 m hrun hdeleted hlater hm hn hcall
  exact absurd hbad (by decide +kernel)

end Auth
end Gitdot
