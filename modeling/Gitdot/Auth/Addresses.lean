/-
# One account per address

An account is found by its primary address. Only verified addresses are
unique: a user is created for an address after a lookup found none, in a later
statement, so two requests that overlap create two users under one address;
and an unverified primary address can be verified by another user as a
secondary one. A sign-in by a code verifies the address first, which the
unique index refuses then. A sign-in by GitHub goes on with the account it
has found. If no user is created for an address that was given to another
since the lookup, and GitHub signs users in only under addresses of their own
that are verified, or that nobody has verified, then an address leads to one
account (`one_account_per_address`).

Key definitions: `CreatesApart`, `SignsInVerified`, `OneAccountPerAddress`.
Key theorems: `addresses_hold`, `one_account_per_address`,
`not_one_account_per_address`.
-/
import Gitdot.Auth.Codes
import Gitdot.Auth.Deletion

namespace Gitdot
namespace Auth

open Lib Prog

variable {c : Setup} {s s' : Store} {call : AuthCall} {P P₀ : AuthPool} {user : Uuid}
  {email : String} {guard : AuthPool → AuthMove → Prop}

/-! ### Addresses -/

/-- The user has verified the address. -/
def Store.verifiedBy (s : Store) (user : Uuid) (email : String) : Bool :=
  s.emails.any fun e => decide (e.userId = user ∧ e.email = email ∧ e.isVerified = true)

/-- The address is a verified secondary address of another user. -/
def Store.SecondaryOfOther (s : Store) (user : Uuid) (email : String) : Prop :=
  ∃ e ∈ s.emails, e.email = email ∧ e.isVerified = true ∧ e.isPrimary = false ∧ e.userId ≠ user

instance : Decidable (s.SecondaryOfOther user email) :=
  inferInstanceAs (Decidable (∃ e ∈ s.emails, _))

/-- The address is the primary one of at most one user. -/
def Store.PrimariesUnique (s : Store) : Prop :=
  ∀ e ∈ s.emails, ∀ r ∈ s.emails, e.isPrimary = true → r.isPrimary = true → e.email = r.email →
    e.userId = r.userId

/-- A verified address is that of one user: the unique index on them. -/
def Store.VerifiedUnique (s : Store) : Prop :=
  ∀ e ∈ s.emails, ∀ r ∈ s.emails, e.isVerified = true → r.isVerified = true → e.email = r.email →
    e.userId = r.userId

/-- The addresses of one store are those of the other, verified if they were. -/
def AddressesLast (s s' : Store) : Prop :=
  ∀ e ∈ s.emails, ∃ r ∈ s'.emails, r.userId = e.userId ∧ r.email = e.email ∧
    r.isPrimary = e.isPrimary ∧ (e.isVerified = true → r.isVerified = true)

theorem AddressesLast.of_eq (h : s'.emails = s.emails) : AddressesLast s s' :=
  fun e he => ⟨e, h ▸ he, rfl, rfl, rfl, id⟩

theorem AddressesLast.trans {s'' : Store} (h : AddressesLast s s') (h' : AddressesLast s' s'') :
    AddressesLast s s'' := by
  intro e he
  obtain ⟨r, hr, huser, hemail, hprimary, hverified⟩ := h e he
  obtain ⟨q, hq, huser', hemail', hprimary', hverified'⟩ := h' r hr
  exact ⟨q, hq, huser'.trans huser, hemail'.trans hemail, hprimary'.trans hprimary,
    fun hv => hverified' (hverified hv)⟩

theorem heldByOther_eq_false : s.heldByOther user email = false ↔
    ∀ e ∈ s.emails, e.email = email → e.isVerified = true → e.userId = user := by
  unfold Store.heldByOther
  simp only [List.any_eq_false, decide_eq_true_eq, not_and, not_not, ne_eq]

theorem isEmailTaken_eq_false : s.isEmailTaken email = false ↔
    ∀ e ∈ s.emails, e.email = email → e.isVerified = false := by
  unfold Store.isEmailTaken
  simp only [List.any_eq_false, decide_eq_true_eq, not_and, Bool.not_eq_true]

/-- The address that a call creates a user for. -/
def AuthCall.signsUp : AuthCall → Option String
  | .createUser email _ _ _ => some email
  | _ => none

/-- What becomes of the addresses: a row is one that was there, perhaps verified
now, or a new one; those verified now are of one user, and nobody else holds
them verified; a new primary one is of a user who is created. -/
structure AddressesAfter (s : Store) (call : AuthCall) (s' : Store) : Prop where
  last : AddressesLast s s'
  verified : ∃ owner, ∀ e ∈ s'.emails, e.isVerified = true →
    (∃ r ∈ s.emails, r.userId = e.userId ∧ r.email = e.email ∧ r.isVerified = true) ∨
      e.userId = owner ∧ s.heldByOther owner e.email = false
  primary : ∃ newcomer, ∀ e ∈ s'.emails, e.isPrimary = true →
    (∃ r ∈ s.emails, r.userId = e.userId ∧ r.email = e.email ∧ r.isPrimary = true) ∨
      call.signsUp = some e.email ∧ e.userId = newcomer ∧
        (s'.users.get? newcomer).isSome = true

theorem addressesAfter_of_eq (h : s'.emails = s.emails) : AddressesAfter s call s' := by
  exact ⟨.of_eq h, ⟨0, fun e he hv => .inl ⟨e, h ▸ he, rfl, rfl, hv⟩⟩,
    0, fun e he hp => .inl ⟨e, h ▸ he, rfl, rfl, hp⟩⟩

/-- The rows of `upsert_verified_emails`: those there were, and new secondary ones of
addresses that nobody had verified. -/
theorem mem_upsertVerifiedEmails {e : UserEmail} : ∀ {emails : List String} {rows : List UserEmail},
    e ∈ Store.upsertVerifiedEmails user emails rows →
      e ∈ rows ∨ e.userId = user ∧ e.isPrimary = false ∧
        ∀ r ∈ rows, r.email = e.email → r.isVerified = false
  | [], _, he => .inl he
  | email :: emails, rows, he => by
    unfold Store.upsertVerifiedEmails at he
    split_ifs at he with htaken
    · exact mem_upsertVerifiedEmails he
    · rcases mem_upsertVerifiedEmails he with he | ⟨huser, hprimary, hfree⟩
      · rcases List.mem_append.mp he with he | he
        · exact .inl he
        · obtain rfl := List.mem_singleton.mp he
          refine .inr ⟨rfl, rfl, fun r hr hemail => Bool.eq_false_of_not_eq_true fun hv => ?_⟩
          exact htaken (List.any_eq_true.mpr ⟨r, hr, decide_eq_true ⟨hemail, .inl hv⟩⟩)
      · exact .inr ⟨huser, hprimary, fun r hr => hfree r (List.mem_append_left _ hr)⟩

theorem subset_upsertVerifiedEmails {e : UserEmail} : ∀ {emails : List String}
    {rows : List UserEmail}, e ∈ rows → e ∈ Store.upsertVerifiedEmails user emails rows
  | [], _, he => he
  | email :: emails, rows, he => by
    unfold Store.upsertVerifiedEmails
    split_ifs
    · exact subset_upsertVerifiedEmails he
    · exact subset_upsertVerifiedEmails (List.mem_append_left _ he)

/-- Rows verified by a statement. -/
theorem addressesAfter_map {p : UserEmail → Prop} [DecidablePred p] {owner : Uuid}
    (h : s'.emails = s.emails.map fun e => if p e then { e with isVerified := true } else e)
    (howner : ∀ e ∈ s.emails, p e → e.userId = owner ∧ s.heldByOther owner e.email = false) :
    AddressesAfter s call s' := by
  refine ⟨fun e he => ?_, ⟨owner, fun e he hv => ?_⟩, owner, fun e he hp => ?_⟩
  · refine ⟨_, h ▸ List.mem_map_of_mem he, ?_⟩
    split_ifs
    · exact ⟨rfl, rfl, rfl, fun _ => rfl⟩
    · exact ⟨rfl, rfl, rfl, id⟩
  · obtain ⟨r, hr, rfl⟩ := List.mem_map.mp (h ▸ he)
    split_ifs at hv ⊢ with hpr
    · exact .inr (howner r hr hpr)
    · exact .inl ⟨r, hr, rfl, rfl, hv⟩
  · obtain ⟨r, hr, rfl⟩ := List.mem_map.mp (h ▸ he)
    split_ifs at hp ⊢
    · exact .inl ⟨r, hr, rfl, rfl, hp⟩
    · exact .inl ⟨r, hr, rfl, rfl, hp⟩

/-- A secondary row inserted. -/
theorem addressesAfter_append (h : s'.emails = s.emails ++ [⟨user, email, false, true⟩])
    (hfree : s.heldByOther user email = false) : AddressesAfter s call s' := by
  refine ⟨fun e he => ⟨e, h ▸ List.mem_append_left _ he, rfl, rfl, rfl, id⟩,
    ⟨user, fun e he hv => ?_⟩, user, fun e he hp => ?_⟩
  · rcases List.mem_append.mp (h ▸ he) with he | he
    · exact .inl ⟨e, he, rfl, rfl, hv⟩
    · obtain rfl := List.mem_singleton.mp he
      exact .inr ⟨rfl, hfree⟩
  · rcases List.mem_append.mp (h ▸ he) with he | he
    · exact .inl ⟨e, he, rfl, rfl, hp⟩
    · obtain rfl := List.mem_singleton.mp he
      cases hp

theorem Effect.addresses (h : Effect c s call s') : AddressesAfter s call s' := by
  cases h with
  | signedUp email isVerified provider handles n account users alive inserted free =>
    refine ⟨fun e he => ⟨e, List.mem_append_left _ he, rfl, rfl, rfl, id⟩,
      ⟨account.id, fun e he hv => ?_⟩, account.id, fun e he hp => ?_⟩
    · rcases List.mem_append.mp he with he | he
      · exact .inl ⟨e, he, rfl, rfl, hv⟩
      · obtain rfl := List.mem_singleton.mp he
        refine .inr ⟨rfl, heldByOther_eq_false.mpr fun r hr hemail hr' => ?_⟩
        rw [isEmailTaken_eq_false.mp (free hv) r hr hemail] at hr'
        cases hr'
    · rcases List.mem_append.mp he with he | he
      · exact .inl ⟨e, he, rfl, rfl, hp⟩
      · obtain rfl := List.mem_singleton.mp he
        have hnew := (Table.get?_insert? inserted account.id).trans (if_pos rfl)
        exact .inr ⟨rfl, rfl, Option.isSome_iff_exists.mpr ⟨account, hnew⟩⟩
  | primaryVerified id free =>
    exact addressesAfter_map rfl fun e he hp => ⟨hp.1, hp.1 ▸ free e he hp.1 hp.2⟩
  | upserted user emails =>
    refine ⟨fun e he => ⟨e, subset_upsertVerifiedEmails he, rfl, rfl, rfl, id⟩,
      ⟨user, fun e he hv => ?_⟩, user, fun e he hp => ?_⟩
    · rcases mem_upsertVerifiedEmails he with he | ⟨huser, -, hfree⟩
      · exact .inl ⟨e, he, rfl, rfl, hv⟩
      · refine .inr ⟨huser, heldByOther_eq_false.mpr fun r hr hemail hr' => ?_⟩
        rw [hfree r hr hemail] at hr'
        cases hr'
    · rcases mem_upsertVerifiedEmails he with he | ⟨-, hprimary, -⟩
      · exact .inl ⟨e, he, rfl, rfl, hp⟩
      · rw [hp] at hprimary
        cases hprimary
  | secondaryVerified user email codeHash maxAttempts id f free =>
    unfold Store.verifiedRow
    split
    · exact addressesAfter_map rfl fun e he hp => ⟨hp.1, hp.2 ▸ free⟩
    · exact addressesAfter_append rfl free
  | _ => exact addressesAfter_of_eq rfl

/-- A statement keeps the unique index on verified addresses. -/
theorem AddressesAfter.verifiedUnique (h : AddressesAfter s call s') (hs : s.VerifiedUnique) :
    s'.VerifiedUnique := by
  obtain ⟨owner, hverified⟩ := h.verified
  intro e he r hr hve hvr hemail
  rcases hverified e he hve with ⟨e', he', hue, hee, hve'⟩ | ⟨hue, hfe⟩
  · rcases hverified r hr hvr with ⟨r', hr', hur, her, hvr'⟩ | ⟨hur, hfr⟩
    · rw [← hue, ← hur]
      exact hs e' he' r' hr' hve' hvr' (hee.trans (hemail.trans her.symm))
    · rw [← hue, hur]
      exact heldByOther_eq_false.mp hfr e' he' (hee.trans hemail) hve'
  · rcases hverified r hr hvr with ⟨r', hr', hur, her, hvr'⟩ | ⟨hur, -⟩
    · rw [hue, ← hur]
      exact (heldByOther_eq_false.mp hfe r' hr' (her.trans hemail.symm) hvr').symm
    · exact hue.trans hur.symm

theorem addressesLast_after (hP : After c guard P₀ P) :
    AddressesLast P₀.sys.store P.sys.store :=
  Later.le hP (fun _ => .of_eq rfl) .trans (fun _ _ => exec_effect.addresses.last)
    fun _ _ => .of_eq rfl

/-! ### Lookups -/

/-- The request has looked up the account of an address. -/
def LookedUp (n : ℕ) (email : String) (log : List Record) : Prop :=
  ∃ m ∈ log, m.caller.number = n ∧ m.call = .getByPrimaryEmail email

instance {n : ℕ} {log : List Record} : Decidable (LookedUp n email log) :=
  inferInstanceAs (Decidable (∃ m ∈ log, _))

theorem lookedUp_of_saw {n : ℕ} {log : List Record} {found : Option User}
    (h : Saw (seen n log) (.getByPrimaryEmail email) found) : LookedUp n email log := by
  obtain ⟨m, hm, hn, hevent⟩ := mem_seen.mp h
  exact ⟨m, hm, hn, congrArg Sigma.fst hevent⟩

/-- A request looks up one address. -/
theorem lookedUp_unique (hP : Run c guard P) {n : ℕ} {email' : String}
    (h : LookedUp n email P.sys.log) (h' : LookedUp n email' P.sys.log) : email = email' := by
  obtain ⟨m, hm, hn, hcall⟩ := h
  obtain ⟨m', hm', hn', hcall'⟩ := h'
  have honce : ∀ (m m' : Record) (older : List Record) (email email' : String),
      m :: older <:+ P.sys.log → m' ∈ older → m.caller.number = m'.caller.number →
      m.call = .getByPrimaryEmail email → m'.call ≠ .getByPrimaryEmail email' := by
    rintro ⟨caller, before, call, answer⟩ ⟨caller', before', call', answer'⟩ older email email'
      hsuffix hmem hsame rfl rfl
    have hunlooked : Unlooked (seen caller.number older) := (auth_obeyed hP).calls _ older hsuffix
    exact hunlooked email' answer' (mem_seen.mpr ⟨_, hmem, hsame.symm, rfl⟩)
  obtain ⟨newer, older, heq⟩ := List.append_of_mem hm
  rw [heq] at hm'
  rcases List.mem_append.mp hm' with hnewer | hm'
  · obtain ⟨newer', between, hnewer⟩ := List.append_of_mem hnewer
    refine absurd hcall (honce m' m (between ++ m :: older) email' email ?_
      (List.mem_append_right _ List.mem_cons_self) (hn'.trans hn.symm) hcall')
    exact ⟨newer', by rw [heq, hnewer, List.append_assoc]; rfl⟩
  · rcases List.mem_cons.mp hm' with rfl | holder
    · exact AuthCall.getByPrimaryEmail.inj (hcall.symm.trans hcall')
    · exact absurd hcall' (honce m m' older email email' ⟨newer, heq.symm⟩ holder
        (hn.trans hn'.symm) hcall)

/-- The row under which an account is found. -/
theorem getByPrimaryEmail_row {u : User} (h : s.getByPrimaryEmail email = some u) :
    ∃ e ∈ s.emails, e.userId = u.id ∧ e.email = email ∧ e.isPrimary = true := by
  obtain ⟨e, he, hfound⟩ := Option.bind_eq_some_iff.mp h
  have hrow := List.find?_some he
  obtain ⟨hemail, hprimary⟩ := of_decide_eq_true hrow
  exact ⟨e, List.mem_of_find?_eq_some he, (getById_eq_some hfound).1.symm, hemail, hprimary⟩

/-- No account is found under an address that is nobody's primary one. -/
theorem no_primary_of_none (howned : ∀ e ∈ s.emails, e.isPrimary = true →
      (s.users.get? e.userId).isSome = true) (h : s.getByPrimaryEmail email = none) :
    ∀ e ∈ s.emails, e.isPrimary = true → e.email ≠ email := by
  intro e he hprimary hemail
  unfold Store.getByPrimaryEmail at h
  cases hfind : s.emails.find? fun e => decide (e.email = email ∧ e.isPrimary = true) with
  | none => exact List.find?_eq_none.mp hfind e he (decide_eq_true ⟨hemail, hprimary⟩)
  | some r =>
    have hrow := List.find?_some hfind
    obtain ⟨a, ha⟩ := Option.isSome_iff_exists.mp
      (howned r (List.mem_of_find?_eq_some hfind) (of_decide_eq_true hrow).2)
    rw [hfind] at h
    have hnone : (s.users.get? r.userId).map s.project = none := h
    rw [ha] at hnone
    cases hnone

/-- Users stay. -/
theorem Effect.user_stays (h : Effect c s call s') (hu : (s.users.get? user).isSome = true) :
    (s'.users.get? user).isSome = true := by
  rcases h.users with heq | ⟨account, hins⟩ | ⟨id, heq⟩
  · rwa [heq]
  · rw [Table.get?_insert? hins]
    split_ifs
    · rfl
    · exact hu
  · rw [heq, get?_markUserAsDeleted]
    split_ifs with hid
    · rw [← hid, Option.isSome_map]
      exact hu
    · exact hu

/-! ### One account -/

/-- A user has been created for the address since the request looked it up. -/
def SignedUpSince (n : ℕ) (email : String) : List Record → Prop
  | [] => False
  | m :: older => m.call.signsUp = some email ∧ LookedUp n email older ∨ SignedUpSince n email older

instance decidableSignedUpSince {n : ℕ} {email : String} :
    (log : List Record) → Decidable (SignedUpSince n email log)
  | [] => .isFalse id
  | _ :: older => @instDecidableOr _ _ _ (decidableSignedUpSince older)

/-- When a user is created for an address, none that was created for it since the
request looked it up is there. -/
def CreatesApart : AuthPool → AuthMove → Prop :=
  OnCalls fun P caller call => ∀ email ∈ call.signsUp,
    SignedUpSince caller.number email P.sys.log → P.sys.store.getByPrimaryEmail email = none

instance (P : AuthPool) (m : AuthMove) : Decidable (CreatesApart P m) :=
  inferInstanceAs (Decidable (OnCalls _ P m))

/-- What holds of the addresses: those that are verified are unique, a primary one
is of a user, and of one; and none is under an address that a request has found
free, unless it came since. -/
structure AddressesHold (P : AuthPool) : Prop where
  verified : P.sys.store.VerifiedUnique
  owned : ∀ e ∈ P.sys.store.emails, e.isPrimary = true →
    (P.sys.store.users.get? e.userId).isSome = true
  cleared : ∀ n email, Saw (seen n P.sys.log) (.getByPrimaryEmail email) none →
    SignedUpSince n email P.sys.log ∨
      ∀ e ∈ P.sys.store.emails, e.isPrimary = true → e.email ≠ email
  primary : P.sys.store.PrimariesUnique

/-- Where a user is created, the address is nobody's primary one. -/
theorem AddressesHold.free {n : ℕ} {op : Op} {k : Except AuthCallError call.Resp → AuthProg Reply}
    (hA : AddressesHold P) (hP : Run c guard P)
    (hthread : P.threads[n]? = some ⟨op, .call call k⟩) (hcall : call.signsUp = some email)
    (hguard : ∀ email ∈ call.signsUp, SignedUpSince n email P.sys.log →
      P.sys.store.getByPrimaryEmail email = none) :
    ∀ e ∈ P.sys.store.emails, e.isPrimary = true → e.email ≠ email := by
  have hmakes := ((auth_obeyed hP).rests n _ hthread).1
  cases call with
  | createUser email' isVerified provider handles =>
    obtain rfl := Option.some.inj hcall
    rcases hA.cleared n email' hmakes.1 with hsince | hnone
    · exact no_primary_of_none hA.owned (hguard email' rfl hsince)
    · exact hnone
  | _ => cases hcall

theorem addresses_hold (hguard : ∀ P m, guard P m → CreatesApart P m) (hP : Run c guard P) :
    AddressesHold P := by
  induction hP using Run.happening with
  | start hidle =>
    obtain ⟨now, rfl⟩ := hidle
    exact ⟨nofun, nofun, fun n email h => by simp [Saw] at h, nofun⟩
  | @next P m P' hP _ hg hhappens ih =>
    cases hhappens with
    | nothing => exact ih
    | tick => exact ⟨ih.verified, ih.owned, ih.cleared, ih.primary⟩
    | arrival => exact ⟨ih.verified, ih.owned, ih.cleared, ih.primary⟩
    | call n fate op call k s answer thread effect makes ok =>
      have haddresses := effect.addresses
      obtain ⟨newcomer, hprimary⟩ := haddresses.primary
      have hfree := fun email (hcall : call.signsUp = some email) =>
        ih.free hP thread hcall ((hguard _ _ hg).of_thread thread)
      refine ⟨haddresses.verifiedUnique ih.verified, fun e he hp => ?_, fun j email hs => ?_,
        fun e he r hr hpe hpr hemail => ?_⟩
      · rcases hprimary e he hp with ⟨r, hr, huser, -, hpr⟩ | ⟨-, huser, hthere⟩
        · exact effect.user_stays (huser ▸ ih.owned r hr hpr)
        · exact huser ▸ hthere
      · rcases mem_seen_cons.mp hs with ⟨-, hevent⟩ | hs
        -- the address is looked up now
        · have hevent : (⟨call, answer⟩ : AuthEvent) = ⟨.getByPrimaryEmail email, .ok none⟩ := hevent
          cases hevent
          obtain ⟨hfound, rfl⟩ := Prod.mk.inj (ok _ rfl).2
          exact .inr (no_primary_of_none ih.owned (Except.ok.inj hfound))
        · by_cases hcall : call.signsUp = some email
          · exact .inl (.inl ⟨hcall, lookedUp_of_saw hs⟩)
          rcases ih.cleared j email hs with hsince | hnone
          · exact .inl (.inr hsince)
          refine .inr fun e he hp hemail => ?_
          rcases hprimary e he hp with ⟨r, hr, -, hsame, hpr⟩ | ⟨hnew, -⟩
          · exact hnone r hr hpr (hsame.trans hemail)
          · exact hcall (hemail ▸ hnew)
      -- both were primary before, or both are the one that has come
      · rcases hprimary e he hpe with ⟨e', he', hue, hee, hpe'⟩ | ⟨hnew, hue, -⟩
        · rcases hprimary r hr hpr with ⟨r', hr', hur, her, hpr'⟩ | ⟨hnew, -⟩
          · rw [← hue, ← hur]
            exact ih.primary e' he' r' hr' hpe' hpr' (hee.trans (hemail.trans her.symm))
          · exact absurd (hee.trans hemail) (hfree _ hnew e' he' hpe')
        · rcases hprimary r hr hpr with ⟨r', hr', -, her, hpr'⟩ | ⟨-, hur, -⟩
          · exact absurd (her.trans hemail.symm) (hfree _ hnew r' hr' hpr')
          · exact hue.trans hur.symm

/-! ### Sign-ins -/

/-- The user that a call starts a session of. -/
def AuthCall.startsFor : AuthCall → Option Uuid
  | .createSession user _ _ _ => some user
  | _ => none

/-- The request is a sign-in by GitHub. -/
def Op.exchanges (op : Op) : Bool :=
  match op.request with
  | .exchangeGithubCode _ => true
  | _ => false

/-- The address under which a lookup has found an account. -/
def foundUnder : Record → Option String
  | ⟨_, _, .getByPrimaryEmail email, .ok (some _)⟩ => some email
  | _ => none

/-- A sign-in by GitHub starts a session of the account that it has found only if the
account has verified the address, or nobody has. -/
def SignsInVerified : AuthPool → AuthMove → Prop :=
  OnCalls fun P caller call => caller.op.exchanges = true → ∀ user ∈ call.startsFor,
    ∀ m ∈ P.sys.log, m.caller.number = caller.number → ∀ email ∈ foundUnder m,
      P.sys.store.verifiedBy user email = true ∨ P.sys.store.isEmailTaken email = false

-- not by running through the ids: the user is the one of the call
instance (P : AuthPool) (m : AuthMove) : Decidable (SignsInVerified P m) :=
  letI : ∀ (P : AuthPool) (caller : Caller Op) (call : AuthCall), Decidable
      (∀ user ∈ call.startsFor, ∀ m ∈ P.sys.log, m.caller.number = caller.number →
        ∀ email ∈ foundUnder m, P.sys.store.verifiedBy user email = true ∨
          P.sys.store.isEmailTaken email = false) :=
    fun _ _ call => Option.decidableForallMem call.startsFor
  inferInstanceAs (Decidable (OnCalls _ P m))

/-- What is asked of a run that keeps one account per address. -/
def KeepsAddresses (P : AuthPool) (m : AuthMove) : Prop := CreatesApart P m ∧ SignsInVerified P m

instance (P : AuthPool) (m : AuthMove) : Decidable (KeepsAddresses P m) :=
  inferInstanceAs (Decidable (_ ∧ _))

/-- An address is the primary one of at most one user, and a sign-in under it does
not start a session of a user while it is a verified secondary one of another. -/
structure OneAccountPerAddress (P : AuthPool) : Prop where
  primary : P.sys.store.PrimariesUnique
  signsIn : ∀ m older, m :: older <:+ P.sys.log → m.caller.op.opens.isSome = true →
    ∀ user ∈ m.call.startsFor, ∀ email, LookedUp m.caller.number email older →
      ¬ m.before.SecondaryOfOther user email

/-- An address that its user has verified is not verified by another. -/
theorem not_secondary_of_verified (hs : s.VerifiedUnique) {e : UserEmail} (he : e ∈ s.emails)
    (hverified : e.isVerified = true) : ¬ s.SecondaryOfOther e.userId e.email := by
  rintro ⟨r, hr, hemail, hvr, -, hne⟩
  exact hne (hs r hr e he hvr hverified hemail)

/-- The row of a user who is created. -/
theorem createUser_row {isVerified : Bool} {provider : AuthProvider} {u : User} :
    ∀ {handles : List String} {s : Store},
      (Store.createUser c email isVerified provider handles s).1 = .ok u →
        ⟨u.id, email, true, isVerified⟩ ∈
          (Store.createUser c email isVerified provider handles s).2.emails
  | [], s, h => by cases h
  | handle :: handles, s, h => by
    unfold Store.createUser at h ⊢
    cases hins : s.insertUser c email isVerified provider handle with
    | none =>
      rw [hins] at h
      exact createUser_row (s := { s with draws := s.draws + 1 }) h
    | some out =>
      rw [hins] at h
      obtain ⟨account, s'⟩ := out
      obtain rfl := Except.ok.inj h
      unfold Store.insertUser at hins
      split_ifs at hins
      obtain ⟨users, hinserted, heq⟩ := Option.map_eq_some_iff.mp hins
      obtain ⟨rfl, rfl⟩ := Prod.mk.inj heq
      exact List.mem_append_right _ List.mem_cons_self

/-- A sign-in by a code has verified the address. -/
theorem verified_of_saw (hP : Run c guard P) {n : ℕ} (hlooked : LookedUp n email P.sys.log)
    (hs : Saw (seen n P.sys.log) (.verifyEmail user) ()) :
    ∃ e ∈ P.sys.store.emails, e.userId = user ∧ e.email = email ∧ e.isVerified = true := by
  obtain ⟨op, P₁, P₂, hm⟩ := hs.moment hP
  obtain ⟨k, hk⟩ := hm.thread
  obtain ⟨request, u, -, hfound, rfl⟩ := ((auth_obeyed hm.reach).rests n _ hk).1
  -- the address is the one it has looked up
  have hsuffix := hm.later.log_suffix
  rw [hm.sys] at hsuffix
  obtain ⟨r, hr, hn, hcall⟩ := lookedUp_of_saw hfound
  have hsame : request.email = email :=
    lookedUp_unique hP ⟨r, hsuffix.subset (List.mem_cons_of_mem _ hr), hn, hcall⟩ hlooked
  subst hsame
  -- its row was there when it was found, and is verified
  obtain ⟨op', P₃, P₄, hm'⟩ := hfound.moment hm.reach
  obtain ⟨e, he, huser, hemail, hprimary⟩ := getByPrimaryEmail_row (Except.ok.inj hm'.exec)
  obtain ⟨e', he', huser', hemail', hprimary', -⟩ :=
    addressesLast_after hm'.later e (by rw [hm'.sys]; exact he)
  have hverify : P₁.sys.store.verifyEmail u.id = (.ok (), P₂.sys.store) := hm.exec_eq
  unfold Store.verifyEmail at hverify
  split_ifs at hverify with hheld
  · cases hverify
  · obtain ⟨-, hstore⟩ := Prod.mk.inj hverify
    have hrow : { e' with isVerified := true } ∈ P₂.sys.store.emails := by
      rw [← hstore]
      refine List.mem_map.mpr ⟨e', he', if_pos ⟨huser'.trans huser, ?_⟩⟩
      exact hprimary'.trans hprimary
    obtain ⟨e'', he'', huser'', hemail'', -, hverified''⟩ := addressesLast_after hm.later _ hrow
    exact ⟨e'', he'', huser''.trans (huser'.trans huser), hemail''.trans (hemail'.trans hemail),
      hverified'' rfl⟩

/-- A user who is created by GitHub has verified the address. -/
theorem verified_of_created (hP : Run c guard P) {n : ℕ} {provider : AuthProvider}
    {handles : List String} {u : User}
    (hs : Saw (seen n P.sys.log) (.createUser email true provider handles) u) :
    ∃ e ∈ P.sys.store.emails, e.userId = u.id ∧ e.email = email ∧ e.isVerified = true := by
  obtain ⟨op, P₁, P₂, hm⟩ := hs.moment hP
  have hcreated : Store.createUser c email true provider handles P₁.sys.store =
      (.ok u, P₂.sys.store) := hm.exec_eq
  have hrow := createUser_row (congrArg Prod.fst hcreated)
  rw [hcreated] at hrow
  obtain ⟨e, he, huser, hemail, -, hverified⟩ := addressesLast_after hm.later _ hrow
  exact ⟨e, he, huser, hemail, hverified rfl⟩

theorem foundUnder_of_saw {n : ℕ} {log : List Record} {u : User}
    (h : Saw (seen n log) (.getByPrimaryEmail email) (some u)) :
    ∃ m ∈ log, m.caller.number = n ∧ foundUnder m = some email := by
  obtain ⟨⟨caller, before, call, answer⟩, hm, hn, hevent⟩ := mem_seen.mp h
  have hevent : (⟨call, answer⟩ : AuthEvent) = ⟨.getByPrimaryEmail email, .ok (some u)⟩ := hevent
  cases hevent
  exact ⟨_, hm, hn, rfl⟩

theorem opens_eq_none_of_presents {op : Op} {hash : String} (h : op.presents c = some hash) :
    op.opens = none := by
  obtain ⟨request, draws⟩ := op
  cases request with
  | refreshSession => rfl
  | _ => cases h

/-- A sign-in does not start a session of a user under an address that another has
verified. -/
theorem not_secondary_of_signsIn {n : ℕ} {op : Op}
    {k : Except AuthCallError call.Resp → AuthProg Reply} (hP : Run c KeepsAddresses P)
    (hthread : P.threads[n]? = some ⟨op, .call call k⟩)
    (hguard : op.exchanges = true → ∀ user ∈ call.startsFor, ∀ m ∈ P.sys.log,
      m.caller.number = n → ∀ email ∈ foundUnder m,
        P.sys.store.verifiedBy user email = true ∨ P.sys.store.isEmailTaken email = false)
    (hopens : op.opens.isSome = true) (huser : call.startsFor = some user)
    (hlooked : LookedUp n email P.sys.log) : ¬ P.sys.store.SecondaryOfOther user email := by
  have hunique := (addresses_hold (fun _ _ h => h.1) hP).verified
  have hmakes := ((auth_obeyed hP).rests n _ hthread).1
  cases call with
  | createSession user' hash family expiresAt =>
    obtain rfl := Option.some.inj huser
    obtain ⟨-, -, ⟨email', u, hin, rfl, -⟩ | ⟨oldHash, session, u, entry, hrot, -⟩⟩ := hmakes
    · have hrows : (∃ e ∈ P.sys.store.emails, e.userId = u.id ∧ e.email = email ∧
          e.isVerified = true) → ¬ P.sys.store.SecondaryOfOther u.id email := by
        rintro ⟨e, he, hid, rfl, hverified⟩
        exact hid ▸ not_secondary_of_verified hunique he hverified
      unfold SignsIn at hin
      split at hin
      · exact hrows (verified_of_saw hP hlooked hin.2.2.2.2)
      · rename_i request hop
        rcases hin with ⟨hfound, -⟩ | ⟨hnone, hcreated⟩
        · obtain rfl := lookedUp_unique hP (lookedUp_of_saw hfound) hlooked
          have hop : op.request = .exchangeGithubCode request := hop
          have hexchanges : op.exchanges = true := by simp only [Op.exchanges, hop]
          obtain ⟨m, hm, hn, hunder⟩ := foundUnder_of_saw hfound
          rcases hguard hexchanges u.id rfl m hm hn _ hunder with hverified | hfree
          · obtain ⟨e, he, hrow⟩ := List.any_eq_true.mp hverified
            exact hrows ⟨e, he, of_decide_eq_true hrow⟩
          · rintro ⟨e, he, hemail, hverified, -⟩
            rw [isEmailTaken_eq_false.mp hfree e he hemail] at hverified
            cases hverified
        · obtain rfl := lookedUp_unique hP (lookedUp_of_saw hnone) hlooked
          exact hrows (verified_of_created hP hcreated)
      · exact hin.elim
    · rw [opens_eq_none_of_presents hrot.presents] at hopens
      cases hopens
  | _ => cases huser

/-- **One account per address.** -/
theorem one_account_per_address (hP : Run c KeepsAddresses P) : OneAccountPerAddress P := by
  refine ⟨(addresses_hold (fun _ _ h => h.1) hP).primary, fun m older hm => ?_⟩
  induction hP using Run.happening with
  | start hidle =>
    rw [(idle_empty hidle).1] at hm
    exact absurd (List.suffix_nil.mp hm) (List.cons_ne_nil _ _)
  | @next P e P' hP _ hg hhappens ih =>
    cases hhappens with
    | nothing => exact ih hm
    | tick => exact ih hm
    | arrival => exact ih hm
    | call n fate op call k s answer thread effect makes ok =>
      rcases List.suffix_cons_iff.mp hm with heq | hm
      · obtain ⟨rfl, rfl⟩ := List.cons.inj heq
        exact fun hopens user huser email hlooked =>
          not_secondary_of_signsIn hP thread (hg.2.of_thread thread) hopens huser hlooked
      · exact ih hm

/-- A user who asks to add an address. -/
def adding (user : Uuid) (email code : String) : Op :=
  ⟨.addEmail ⟨user, email⟩, ⟨"", code, 0, "", []⟩⟩

/-- A user who confirms the code for an address. -/
def confirming (user : Uuid) (email code : String) : Op :=
  ⟨.verifyEmail ⟨user, email, code⟩, ⟨"", "", 0, "", []⟩⟩

/-- A user signs up, adds `b@x`, and another one signs in by a code sent to `a@x`
and by GitHub. -/
def addedApart : AuthPool :=
  play (authNext plainSetup)
    (alone 0 9 (signUp "w@x" "t0" 1) ++ alone 1 6 (adding 0 "b@x" "5") ++
      alone 2 1 (confirming 0 "b@x" "5") ++ alone 3 8 (sending "a@x" "1" "a") ++
      alone 4 6 (guessing "a@x" "1") ++ alone 5 7 (signUp "a@x" "t1" 2)) idlePool

theorem one_account_per_address_addedApart : OneAccountPerAddress addedApart :=
  one_account_per_address (c := plainSetup) (reach_play (.start idle_idlePool) (by decide +kernel))

/-- Two sends for a new address overlap. -/
def sentApart : AuthPool :=
  play (authNext plainSetup)
    (.start (sending "a@x" "1" "a") :: calls 0 3 ++ .env 30 :: alone 1 8 (sending "a@x" "2" "b") ++
      calls 0 1) idlePool

/-- A code is sent to a new address, which another user then adds and confirms;
then someone signs in by GitHub under it. -/
def addedTaken : AuthPool :=
  play (authNext plainSetup)
    (alone 0 8 (sending "a@x" "1" "a") ++ alone 1 9 (signUp "w@x" "t0" 1) ++
      alone 2 6 (adding 2 "a@x" "5") ++ alone 3 1 (confirming 2 "a@x" "5") ++
      alone 4 7 (signUp "a@x" "t1" 2)) idlePool

/-- The first makes two accounts under the address. The second needs no overlap: it
starts a session of the account that never verified the address. -/
theorem not_one_account_per_address :
    (¬ ∀ P, Run plainSetup (fun _ _ => True) P → P.sys.store.PrimariesUnique) ∧
      ¬ ∀ P, Run plainSetup CreatesApart P → OneAccountPerAddress P := by
  constructor
  · intro h
    have hprimary := h sentApart (reach_play (.start idle_idlePool) guarded_true)
    exact absurd (hprimary ⟨0, "a@x", true, false⟩ (by decide +kernel) ⟨2, "a@x", true, false⟩
      (by decide +kernel) rfl rfl rfl) (by decide)
  · intro h
    have hsignsIn := (h addedTaken (reach_play (.start idle_idlePool) (by decide +kernel))).signsIn
    have hlast : ∀ m ∈ addedTaken.sys.log.head?, m.caller.op.opens.isSome = true ∧
        m.call.startsFor = some 0 ∧ m.before.SecondaryOfOther 0 "a@x" ∧
        LookedUp m.caller.number "a@x" addedTaken.sys.log.tail := by decide +kernel
    cases hlog : addedTaken.sys.log with
    | nil => exact absurd (congrArg List.length hlog) (by decide +kernel)
    | cons m older =>
      rw [hlog] at hsignsIn hlast
      obtain ⟨hopens, hstarts, hsecondary, hlooked⟩ := hlast m rfl
      exact hsignsIn m older (List.suffix_refl _) hopens 0 hstarts "a@x" hlooked hsecondary

end Auth
end Gitdot
