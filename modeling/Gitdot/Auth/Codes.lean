/-
# Login codes

A send invalidates the codes of its user and then inserts a new one, in two
statements. When another send has inserted its code in between, two codes of
one user are live; a guess is always at the newest, so once that is spent the
older one can be guessed at again. If no code is inserted while one that has
come since the invalidation is live, a user has one live code and five guesses
at it (`one_live_code`). That a code succeeds once holds in any run
(`codes_succeed_once`).

Key definitions: `Store.Live`, `wrongGuesses`, `successes`, `SendsApart`,
`OneLiveCode`.
Key theorems: `codes_succeed_once`, `one_live_code`, `not_one_live_code`.
-/
import Gitdot.Auth.Protocol

namespace Gitdot
namespace Auth

open Lib Prog

variable {c : Setup} {s s' : Store} {call : AuthCall} {P : AuthPool}
  {guard : AuthPool → AuthMove → Prop}

/-! ### Live codes -/

/-- The code is unused and unexpired. -/
def Store.Live (s : Store) (code : AuthCode) : Prop :=
  code.usedAt = none ∧ s.now < code.expiresAt

instance {code : AuthCode} : Decidable (s.Live code) := inferInstanceAs (Decidable (_ ∧ _))

/-- The live codes of a user. -/
def Store.liveCodes (s : Store) (user : Uuid) : List AuthCode :=
  s.authCodes.filter fun code => decide (code.userId = user ∧ s.Live code)

/-- How many codes have been created for a user. -/
def Store.created (s : Store) (user : Uuid) : ℕ :=
  s.authCodes.countP fun code => decide (code.userId = user)

theorem activeAuthCode_eq_none {user : Uuid} : s.activeAuthCode user = none ↔
    ∀ code ∈ s.authCodes, code.userId = user → ¬ s.Live code := by
  unfold Store.activeAuthCode Store.Live
  simp only [List.find?_eq_none, decide_eq_true_eq, not_and]

theorem activeAuthCode_eq_some {user : Uuid} {code : AuthCode}
    (h : s.activeAuthCode user = some code) :
    code ∈ s.authCodes ∧ code.userId = user ∧ s.Live code := by
  have hfound := List.find?_some h
  rw [decide_eq_true_eq] at hfound
  exact ⟨List.mem_of_find?_eq_some h, hfound⟩

/-- What becomes of a code: it may be used up, and the guesses at it only grow. -/
structure Ages (code code' : AuthCode) : Prop where
  sameId : code'.id = code.id
  sameUser : code'.userId = code.userId
  sameExpiry : code'.expiresAt = code.expiresAt
  used : code.usedAt ≠ none → code'.usedAt ≠ none
  guesses : code.attemptCount ≤ code'.attemptCount
  spent : code.attemptCount < maxAuthCodeAttempts → code'.usedAt = none →
    code'.attemptCount < maxAuthCodeAttempts

theorem Ages.refl (code : AuthCode) : Ages code code :=
  ⟨rfl, rfl, rfl, id, Nat.le_refl _, fun h _ => h⟩

theorem Ages.live {code code' : AuthCode} (h : Ages code code') (hnow : s.now ≤ s'.now)
    (hlive : s'.Live code') : s.Live code := by
  refine ⟨by_contra fun hused => h.used hused hlive.1, ?_⟩
  rw [← h.sameExpiry]
  exact Nat.lt_of_le_of_lt hnow hlive.2

/-- The guesses that a call allows. -/
def AuthCall.maxAttempts : AuthCall → Option ℕ
  | .verifyAndConsumeAuthCode _ _ maxAttempts => some maxAttempts
  | _ => none

/-- The user that a call creates a code for. -/
def AuthCall.codeFor : AuthCall → Option Uuid
  | .createAuthCode user _ _ => some user
  | _ => none

/-- The row of a code set to what ages it. -/
theorem ages_set {code : AuthCode} {f : AuthCode → AuthCode}
    (hids : (s.authCodes.map AuthCode.id).Nodup) (hmem : code ∈ s.authCodes)
    (hf : Ages code (f code)) : ∀ r ∈ s.authCodes, Ages r (if r.id = code.id then f r else r) := by
  intro r hr
  split_ifs with hid
  · obtain rfl := List.inj_on_of_nodup_map hids hr hmem hid
    exact hf
  · exact .refl r

/-- The codes after a call: one inserted, or all aged. -/
inductive CodesAfter (c : Setup) (s : Store) (call : AuthCall) (s' : Store) : Prop where
  | created (user : Uuid) (hash : String) (expiresAt : Time)
      (creates : call = .createAuthCode user hash expiresAt)
      (fresh : ∀ r ∈ s.authCodes, r.id ≠ c.drawId s.draws)
      (codes : s'.authCodes = ⟨c.drawId s.draws, user, hash, 0, expiresAt, none⟩ :: s.authCodes)
  | aged (f : AuthCode → AuthCode) (codes : s'.authCodes = s.authCodes.map f)
      (ages : ∀ code ∈ s.authCodes, Ages code (f code))

theorem Effect.codes (h : Effect c s call s') (hids : (s.authCodes.map AuthCode.id).Nodup)
    (hmax : ∀ n ∈ call.maxAttempts, n = maxAuthCodeAttempts) : CodesAfter c s call s' := by
  have hsame : s'.authCodes = s.authCodes → CodesAfter c s call s' := fun heq =>
    .aged id (by rw [heq, List.map_id]) fun code _ => .refl code
  cases h with
  | codeCreated user hash expiresAt free =>
    exact .created user hash expiresAt rfl (fun r hr => (free r hr).1) rfl
  | codesInvalidated user =>
    refine .aged _ rfl fun code _ => ?_
    split_ifs
    · exact ⟨rfl, rfl, rfl, fun _ => nofun, Nat.le_refl _, fun _ => nofun⟩
    · exact .refl code
  | codeConsumed user maxAttempts code active =>
    refine .aged _ rfl (ages_set hids (activeAuthCode_eq_some active).1 ?_)
    exact ⟨rfl, rfl, rfl, fun _ => nofun, Nat.le_refl _, fun _ => nofun⟩
  | codeBurned user codeHash maxAttempts code active =>
    refine .aged _ rfl (ages_set hids (activeAuthCode_eq_some active).1 ?_)
    exact ⟨rfl, rfl, rfl, fun _ => nofun, Nat.le_succ _, fun _ => nofun⟩
  | codeMissed user codeHash maxAttempts code active wrong left =>
    obtain rfl := hmax maxAttempts rfl
    refine .aged _ rfl (ages_set hids (activeAuthCode_eq_some active).1 ?_)
    exact ⟨rfl, rfl, rfl, id, Nat.le_succ _, fun _ _ => left⟩
  | secondaryVerified => exact hsame (by unfold Store.verifiedRow; split <;> rfl)
  | _ => exact hsame rfl

section CodesAfter

variable (h : CodesAfter c s call s')
include h

theorem CodesAfter.distinct (hids : (s.authCodes.map AuthCode.id).Nodup) :
    (s'.authCodes.map AuthCode.id).Nodup := by
  cases h with
  | created user hash expiresAt creates fresh codes =>
    rw [codes]
    refine List.nodup_cons.mpr ⟨fun hmem => ?_, hids⟩
    obtain ⟨r, hr, hid⟩ := List.mem_map.mp hmem
    exact fresh r hr hid
  | aged f codes ages =>
    rw [codes, List.map_map]
    have hsame : s.authCodes.map (AuthCode.id ∘ f) = s.authCodes.map AuthCode.id :=
      List.map_congr_left fun r hr => (ages r hr).sameId
    rwa [hsame]

theorem CodesAfter.spent
    (hspent : ∀ code ∈ s.authCodes, code.usedAt = none → code.attemptCount < maxAuthCodeAttempts)
    {code : AuthCode} (hcode : code ∈ s'.authCodes) (hunused : code.usedAt = none) :
    code.attemptCount < maxAuthCodeAttempts := by
  cases h with
  | created user hash expiresAt creates fresh codes =>
    rcases List.mem_cons.mp (codes ▸ hcode) with rfl | hcode
    · exact Nat.succ_pos 4
    · exact hspent code hcode hunused
  | aged f codes ages =>
    obtain ⟨r, hr, rfl⟩ := List.mem_map.mp (codes ▸ hcode)
    refine (ages r hr).spent (hspent r hr ?_) hunused
    exact by_contra fun hused => (ages r hr).used hused hunused

/-- A code that has been used up stays so. -/
theorem CodesAfter.used {id : Uuid}
    (hused : ∃ code ∈ s.authCodes, code.id = id ∧ code.usedAt ≠ none) :
    ∃ code ∈ s'.authCodes, code.id = id ∧ code.usedAt ≠ none := by
  obtain ⟨code, hcode, hid, hused⟩ := hused
  cases h with
  | created user hash expiresAt creates fresh codes =>
    exact ⟨code, codes ▸ List.mem_cons_of_mem _ hcode, hid, hused⟩
  | aged f codes ages =>
    exact ⟨f code, codes ▸ List.mem_map_of_mem hcode, (ages code hcode).sameId.trans hid,
      (ages code hcode).used hused⟩

end CodesAfter

/-- What a guess does that is answered. -/
theorem guess_cases {user : Uuid} {codeHash : String} {maxAttempts : ℕ}
    {answer : AuthCodeVerification}
    (h : exec c (.verifyAndConsumeAuthCode user codeHash maxAttempts) s = (.ok answer, s')) :
    (answer = .noActiveCode ∧ s' = s) ∨
    ∃ code, s.activeAuthCode user = some code ∧
      ((answer = .success ∧ s' = s.setAuthCode code.id fun r => { r with usedAt := some s.now }) ∨
        (answer = .attemptsExhausted ∧ s' = s.setAuthCode code.id fun r =>
          { r with attemptCount := code.attemptCount + 1, usedAt := some s.now }) ∨
        answer = .invalid ∧ s' = s.setAuthCode code.id fun r =>
          { r with attemptCount := code.attemptCount + 1 }) := by
  obtain ⟨hanswer, rfl⟩ := Prod.mk.inj h
  obtain rfl := Except.ok.inj hanswer
  unfold Store.verifyAndConsumeAuthCode
  cases s.activeAuthCode user with
  | none => exact .inl ⟨rfl, rfl⟩
  | some code =>
    dsimp only
    split_ifs
    · exact .inr ⟨code, rfl, .inl ⟨rfl, rfl⟩⟩
    · exact .inr ⟨code, rfl, .inr (.inl ⟨rfl, rfl⟩)⟩
    · exact .inr ⟨code, rfl, .inr (.inr ⟨rfl, rfl⟩)⟩

/-! ### Guesses -/

/-- A guess that was right, of the code with the id. -/
def succeeds (id : Uuid) : Record → Bool
  | ⟨_, before, .verifyAndConsumeAuthCode user _ _, .ok .success⟩ =>
    (before.activeAuthCode user).any fun code => decide (code.id = id)
  | _ => false

/-- A guess that was wrong, of a live code of the user. -/
def misses (user : Uuid) : Record → Bool
  | ⟨_, _, .verifyAndConsumeAuthCode user' _ _, .ok .invalid⟩ => decide (user' = user)
  | ⟨_, _, .verifyAndConsumeAuthCode user' _ _, .ok .attemptsExhausted⟩ => decide (user' = user)
  | _ => false

/-- The right guesses of a code. -/
def successes (id : Uuid) (log : List Record) : List Record := log.filter (succeeds id)

/-- The wrong guesses between the `k`th code created for a user and the next. -/
def wrongGuesses (user : Uuid) (k : ℕ) (log : List Record) : List Record :=
  log.filter fun m => misses user m && decide (m.before.created user = k)

/-- At most one code of a user is live, a code succeeds at most once, and at most
five wrong guesses fall between two codes of a user. -/
structure OneLiveCode (P : AuthPool) : Prop where
  live : ∀ user, (P.sys.store.liveCodes user).length ≤ 1
  once : ∀ id, (successes id P.sys.log).length ≤ 1
  guesses : ∀ user k, (wrongGuesses user k P.sys.log).length ≤ maxAuthCodeAttempts

theorem succeeds_cases {id : Uuid} {m : Record} (h : succeeds id m = true) :
    ∃ caller before user hash n code,
      m = ⟨caller, before, .verifyAndConsumeAuthCode user hash n, .ok .success⟩ ∧
      before.activeAuthCode user = some code ∧ code.id = id := by
  unfold succeeds at h
  split at h
  · obtain ⟨code, hactive, hid⟩ := (Option.any_eq_true _ _).mp h
    exact ⟨_, _, _, _, _, _, rfl, hactive, of_decide_eq_true hid⟩
  · cases h

theorem misses_cases {user : Uuid} {m : Record} (h : misses user m = true) :
    ∃ caller before hash n answer,
      m = ⟨caller, before, .verifyAndConsumeAuthCode user hash n, .ok answer⟩ ∧
      (answer = .invalid ∨ answer = .attemptsExhausted) := by
  unfold misses at h
  split at h
  · obtain rfl := of_decide_eq_true h
    exact ⟨_, _, _, _, _, rfl, .inl rfl⟩
  · obtain rfl := of_decide_eq_true h
    exact ⟨_, _, _, _, _, rfl, .inr rfl⟩
  · cases h

theorem Makes.maxAttempts {op : Op} {seen : List AuthEvent} (h : Makes c op seen call) :
    ∀ n ∈ call.maxAttempts, n = maxAuthCodeAttempts := by
  intro n hn
  cases call with
  | verifyAndConsumeAuthCode user hash n' =>
    obtain rfl := Option.some.inj hn
    exact h.1
  | _ => cases hn

/-! ### One success -/

/-- What holds of the codes in any run: a code has an id of its own, is used up by
five guesses, and is used up once it has succeeded. -/
structure CodesKept (P : AuthPool) : Prop where
  distinct : (P.sys.store.authCodes.map AuthCode.id).Nodup
  spent : ∀ code ∈ P.sys.store.authCodes, code.usedAt = none →
    code.attemptCount < maxAuthCodeAttempts
  consumed : ∀ id, successes id P.sys.log ≠ [] →
    ∃ code ∈ P.sys.store.authCodes, code.id = id ∧ code.usedAt ≠ none
  once : ∀ id, (successes id P.sys.log).length ≤ 1

/-- A guess that is right uses the code up, which had not succeeded before. -/
theorem CodesKept.succeeded (h : CodesKept P) {id : Uuid} {caller : Caller Op}
    {answer : Except AuthCallError call.Resp}
    (ok : ∀ a, answer = .ok a → exec c call P.sys.store = (.ok a, s))
    (hs : succeeds id ⟨caller, P.sys.store, call, answer⟩ = true) :
    (∃ code ∈ s.authCodes, code.id = id ∧ code.usedAt ≠ none) ∧ successes id P.sys.log = [] := by
  obtain ⟨_, _, user, hash, n, code, heq, hactive, rfl⟩ := succeeds_cases hs
  cases heq
  obtain ⟨hmem, -, hlive⟩ := activeAuthCode_eq_some hactive
  constructor
  · rcases guess_cases (ok _ rfl) with ⟨h, -⟩ | ⟨code', hactive', ⟨-, rfl⟩ | ⟨h, -⟩ | ⟨h, -⟩⟩
    · cases h
    · obtain rfl := Option.some.inj (hactive.symm.trans hactive')
      refine ⟨_, List.mem_map_of_mem hmem, ?_⟩
      rw [if_pos rfl]
      exact ⟨rfl, nofun⟩
    · cases h
    · cases h
  · by_contra hne
    obtain ⟨code', hmem', hid, hused⟩ := h.consumed _ hne
    obtain rfl := List.inj_on_of_nodup_map h.distinct hmem' hmem hid
    exact hused hlive.1

theorem codes_kept (hP : Run c guard P) : CodesKept P := by
  induction hP using Run.happening with
  | start hidle =>
    obtain ⟨now, rfl⟩ := hidle
    exact ⟨List.nodup_nil, nofun, fun id h => absurd rfl h, fun id => Nat.zero_le 1⟩
  | @next P m P' hP _ hg hhappens ih =>
    cases hhappens with
    | nothing => exact ih
    | tick => exact ⟨ih.distinct, ih.spent, ih.consumed, ih.once⟩
    | arrival => exact ⟨ih.distinct, ih.spent, ih.consumed, ih.once⟩
    | call n fate op call k s answer thread effect makes ok =>
      have hcodes := effect.codes ih.distinct makes.maxAttempts
      have hright := fun id (hs : succeeds id ⟨⟨n, op⟩, P.sys.store, call, answer⟩ = true) =>
        ih.succeeded (fun a ha => (ok a ha).2) hs
      refine ⟨hcodes.distinct ih.distinct, fun _ => hcodes.spent ih.spent, fun id hne => ?_,
        fun id => ?_⟩
      · cases hs : succeeds id ⟨⟨n, op⟩, P.sys.store, call, answer⟩ with
        | true => exact (hright id hs).1
        | false =>
          refine hcodes.used (ih.consumed id ?_)
          simpa [successes, hs] using hne
      · cases hs : succeeds id ⟨⟨n, op⟩, P.sys.store, call, answer⟩ with
        | true =>
          have hnone : P.sys.log.filter (succeeds id) = [] := (hright id hs).2
          simp [successes, hs, hnone]
        | false => simpa [successes, hs] using ih.once id

/-- **A code succeeds at most once**, in any run. -/
theorem codes_succeed_once (hP : Run c guard P) (id : Uuid) :
    (successes id P.sys.log).length ≤ 1 :=
  (codes_kept hP).once id

/-! ### One live code -/

/-- The request has asked to invalidate the codes of the user. -/
def Invalidated (n : ℕ) (user : Uuid) (log : List Record) : Prop :=
  ∃ m ∈ log, m.caller.number = n ∧ m.call = .invalidateAuthCodes user

instance {n : ℕ} {user : Uuid} {log : List Record} : Decidable (Invalidated n user log) :=
  inferInstanceAs (Decidable (∃ m ∈ log, _))

/-- A code of the user has been inserted since the request invalidated them. -/
def CreatedSince (n : ℕ) (user : Uuid) : List Record → Prop
  | [] => False
  | m :: older => m.call.codeFor = some user ∧ Invalidated n user older ∨ CreatedSince n user older

instance decidableCreatedSince {n : ℕ} {user : Uuid} :
    (log : List Record) → Decidable (CreatedSince n user log)
  | [] => .isFalse id
  | _ :: older => @instDecidableOr _ _ _ (decidableCreatedSince older)

/-- When a send inserts its code, no code that was inserted since its invalidation
is live. -/
def SendsApart : AuthPool → AuthMove → Prop :=
  OnCalls fun P caller call => ∀ user ∈ call.codeFor,
    CreatedSince caller.number user P.sys.log → P.sys.store.activeAuthCode user = none

-- not by running through the ids: the user is the one of the call
instance (P : AuthPool) (m : AuthMove) : Decidable (SendsApart P m) :=
  letI : ∀ (P : AuthPool) (caller : Caller Op) (call : AuthCall), Decidable
      (∀ user ∈ call.codeFor, CreatedSince caller.number user P.sys.log →
        P.sys.store.activeAuthCode user = none) :=
    fun _ _ call => Option.decidableForallMem call.codeFor
  inferInstanceAs (Decidable (OnCalls _ P m))

theorem invalidated_of_saw {n : ℕ} {user : Uuid} {log : List Record}
    (h : Saw (seen n log) (.invalidateAuthCodes user) ()) : Invalidated n user log := by
  obtain ⟨m, hm, hn, hevent⟩ := mem_seen.mp h
  exact ⟨m, hm, hn, congrArg Sigma.fst hevent⟩

/-- What holds of the codes while sends are apart: at most one of a user is live,
none for a send that has invalidated them unless one came since, and its
attempt count covers the wrong guesses since it was created. -/
structure SendsHold (P : AuthPool) : Prop where
  sole : ∀ a ∈ P.sys.store.authCodes, ∀ b ∈ P.sys.store.authCodes, a.userId = b.userId →
    P.sys.store.Live a → P.sys.store.Live b → a = b
  cleared : ∀ n user, Saw (seen n P.sys.log) (.invalidateAuthCodes user) () →
    CreatedSince n user P.sys.log ∨ P.sys.store.activeAuthCode user = none
  counted : ∀ code ∈ P.sys.store.authCodes, P.sys.store.Live code →
    (wrongGuesses code.userId (P.sys.store.created code.userId) P.sys.log).length ≤
      code.attemptCount
  later : ∀ user k, P.sys.store.created user < k → wrongGuesses user k P.sys.log = []
  budget : ∀ user k, (wrongGuesses user k P.sys.log).length ≤ maxAuthCodeAttempts

/-- A code after an insertion or an ageing that is live was live before, with as
many codes of its user, or is the one inserted. -/
theorem CodesAfter.live_cases (h : CodesAfter c s call s') (hnow : s'.now = s.now)
    {code : AuthCode} (hcode : code ∈ s'.authCodes) (hlive : s'.Live code) :
    (∃ r ∈ s.authCodes, s.Live r ∧ Ages r code) ∨
      call.codeFor = some code.userId ∧ code.id = c.drawId s.draws ∧
        s'.created code.userId = s.created code.userId + 1 := by
  cases h with
  | created user hash expiresAt creates fresh codes =>
    rcases List.mem_cons.mp (codes ▸ hcode) with rfl | hmem
    · refine .inr ⟨by rw [creates]; rfl, rfl, ?_⟩
      unfold Store.created
      rw [codes, List.countP_cons_of_pos (by simp)]
    · exact .inl ⟨code, hmem, (Ages.refl code).live hnow.ge hlive, .refl code⟩
  | aged f codes ages =>
    obtain ⟨r, hr, rfl⟩ := List.mem_map.mp (codes ▸ hcode)
    exact .inl ⟨r, hr, (ages r hr).live hnow.ge hlive, ages r hr⟩

/-- Codes are created by the calls that create them, one at a time. -/
theorem CodesAfter.created_eq (h : CodesAfter c s call s') (user : Uuid) :
    s'.created user = s.created user ∨
      call.codeFor = some user ∧ s'.created user = s.created user + 1 := by
  unfold Store.created
  cases h with
  | created user' hash expiresAt creates fresh codes =>
    rw [codes]
    by_cases hu : user' = user
    · exact .inr ⟨by rw [creates, hu]; rfl, List.countP_cons_of_pos (by simpa using hu)⟩
    · exact .inl (List.countP_cons_of_neg (by simpa using hu))
  | aged f codes ages =>
    rw [codes, List.countP_map]
    refine .inl (List.countP_congr fun r hr => ?_)
    simp only [Function.comp, decide_eq_true_eq, (ages r hr).sameUser]

theorem wrongGuesses_cons_of_not_misses {user : Uuid} {k : ℕ} {m : Record} {log : List Record}
    (h : misses user m = false) : wrongGuesses user k (m :: log) = wrongGuesses user k log := by
  simp [wrongGuesses, h]

theorem wrongGuesses_cons_ne {user : Uuid} {k : ℕ} {m : Record} {log : List Record}
    (h : m.before.created user ≠ k) : wrongGuesses user k (m :: log) = wrongGuesses user k log := by
  simp [wrongGuesses, h]

/-- One record is at most one wrong guess. -/
theorem wrongGuesses_cons_le {user : Uuid} {k : ℕ} {m : Record} {log : List Record} :
    (wrongGuesses user k (m :: log)).length ≤ (wrongGuesses user k log).length + 1 := by
  unfold wrongGuesses
  rw [List.filter_cons]
  split_ifs
  · exact Nat.le_refl _
  · exact Nat.le_succ _

/-- A wrong guess is at the live code of the user, whose count it raises. -/
theorem missed {user : Uuid} {caller : Caller Op} {answer : Except AuthCallError call.Resp}
    (ok : ∀ a, answer = .ok a → exec c call s = (.ok a, s'))
    (hm : misses user ⟨caller, s, call, answer⟩ = true) :
    call.codeFor = none ∧ ∃ code, s.activeAuthCode user = some code ∧
      ∀ code' ∈ s'.authCodes, code'.usedAt = none → code' ∈ s.authCodes ∧ code'.id ≠ code.id ∨
        code'.attemptCount = code.attemptCount + 1 := by
  obtain ⟨_, _, hash, n, answer, heq, hwrong⟩ := misses_cases hm
  cases heq
  refine ⟨rfl, ?_⟩
  have hcases := guess_cases (ok _ rfl)
  rcases hcases with ⟨rfl, -⟩ | ⟨code, hactive, ⟨rfl, -⟩ | ⟨rfl, rfl⟩ | ⟨rfl, rfl⟩⟩
  · rcases hwrong with h | h <;> cases h
  · rcases hwrong with h | h <;> cases h
  · refine ⟨code, hactive, fun code' hcode' hunused => ?_⟩
    obtain ⟨r, hr, rfl⟩ := List.mem_map.mp hcode'
    split_ifs with hid
    · exact .inr rfl
    · exact .inl ⟨hr, hid⟩
  · refine ⟨code, hactive, fun code' hcode' hunused => ?_⟩
    obtain ⟨r, hr, rfl⟩ := List.mem_map.mp hcode'
    split_ifs with hid
    · exact .inr rfl
    · exact .inl ⟨hr, hid⟩

/-- Where the call inserts a code, no other of the user is live. -/
def InsertsAlone (P : AuthPool) (call : AuthCall) : Prop :=
  ∀ user, call.codeFor = some user → ∀ code ∈ P.sys.store.authCodes, code.userId = user →
    ¬ P.sys.store.Live code

theorem SendsHold.alone {n : ℕ} {op : Op} {k : Except AuthCallError call.Resp → AuthProg Reply}
    (hS : SendsHold P) (hP : Run c SendsApart P)
    (hthread : P.threads[n]? = some ⟨op, .call call k⟩)
    (hguard : ∀ user ∈ call.codeFor, CreatedSince n user P.sys.log →
      P.sys.store.activeAuthCode user = none) : InsertsAlone P call := by
  intro user hcode
  have hmakes := ((auth_obeyed hP).rests n _ hthread).1
  cases call with
  | createAuthCode user' hash expiresAt =>
    obtain rfl := Option.some.inj hcode
    refine activeAuthCode_eq_none.mp ?_
    rcases hS.cleared n user' hmakes with hsince | hnone
    · exact hguard user' rfl hsince
    · exact hnone
  | _ => cases hcode

/-- Some seconds pass. -/
theorem SendsHold.tick (hS : SendsHold P) (seconds : ℕ) :
    SendsHold { P with sys := { P.sys with store := wait seconds P.sys.store } } := by
  have hearlier : ∀ code, (wait seconds P.sys.store).Live code → P.sys.store.Live code :=
    fun code => (Ages.refl code).live (Nat.le_add_right _ _)
  refine ⟨fun a ha b hb hu hla hlb => hS.sole a ha b hb hu (hearlier a hla) (hearlier b hlb),
    fun n user h => ?_, fun code hcode hlive => hS.counted code hcode (hearlier code hlive),
    hS.later, hS.budget⟩
  rcases hS.cleared n user h with hsince | hnone
  · exact .inl hsince
  · exact .inr (activeAuthCode_eq_none.mpr fun code hcode hu hlive =>
      activeAuthCode_eq_none.mp hnone code hcode hu (hearlier code hlive))

/-! The parts of what holds, after a call. -/

section Called

variable {n : ℕ} {op : Op} {answer : Except AuthCallError call.Resp}

/-- Two live codes of a user were live before, or are the one inserted. -/
theorem SendsHold.sole_called (hS : SendsHold P)
    (hdistinct : (P.sys.store.authCodes.map AuthCode.id).Nodup)
    (hcodes : CodesAfter c P.sys.store call s) (hnow : s.now = P.sys.store.now)
    (halone : InsertsAlone P call) {a b : AuthCode} (ha : a ∈ s.authCodes) (hb : b ∈ s.authCodes)
    (hu : a.userId = b.userId) (hla : s.Live a) (hlb : s.Live b) : a = b := by
  have hids := hcodes.distinct hdistinct
  rcases hcodes.live_cases hnow ha hla with ⟨r, hr, hlr, hra⟩ | ⟨hfor, hid, -⟩
  · rcases hcodes.live_cases hnow hb hlb with ⟨q, hq, hlq, hqb⟩ | ⟨hfor, -, -⟩
    · have huser : r.userId = q.userId := hra.sameUser.symm.trans (hu.trans hqb.sameUser)
      obtain rfl := hS.sole r hr q hq huser hlr hlq
      exact List.inj_on_of_nodup_map hids ha hb (hra.sameId.trans hqb.sameId.symm)
    · exact absurd hlr (halone _ hfor r hr (hra.sameUser.symm.trans hu))
  · rcases hcodes.live_cases hnow hb hlb with ⟨q, hq, hlq, hqb⟩ | ⟨-, hid', -⟩
    · exact absurd hlq (halone _ hfor q hq (hqb.sameUser.symm.trans hu.symm))
    · exact List.inj_on_of_nodup_map hids ha hb (hid.trans hid'.symm)

theorem activeAuthCode_invalidated {user : Uuid} :
    (s.invalidateAuthCodes user).activeAuthCode user = none := by
  refine activeAuthCode_eq_none.mpr fun code hcode hu hl => ?_
  obtain ⟨r, -, rfl⟩ := List.mem_map.mp hcode
  split_ifs at hu hl with hr
  · cases hl.1
  · exact hr ⟨hu, hl.1⟩

theorem SendsHold.cleared_called (hS : SendsHold P) (hcodes : CodesAfter c P.sys.store call s)
    (hnow : s.now = P.sys.store.now)
    (ok : ∀ a, answer = .ok a → exec c call P.sys.store = (.ok a, s)) {j : ℕ} {user : Uuid}
    (hs : Saw (seen j (⟨⟨n, op⟩, P.sys.store, call, answer⟩ :: P.sys.log))
      (.invalidateAuthCodes user) ()) :
    CreatedSince j user (⟨⟨n, op⟩, P.sys.store, call, answer⟩ :: P.sys.log) ∨
      s.activeAuthCode user = none := by
  rcases mem_seen_cons.mp hs with ⟨-, hevent⟩ | hs
  · have hevent : (⟨call, answer⟩ : AuthEvent) = ⟨.invalidateAuthCodes user, .ok ()⟩ := hevent
    cases hevent
    obtain rfl : P.sys.store.invalidateAuthCodes user = s := congrArg Prod.snd (ok _ rfl)
    exact .inr activeAuthCode_invalidated
  · by_cases hfor : call.codeFor = some user
    · exact .inl (.inl ⟨hfor, invalidated_of_saw hs⟩)
    rcases hS.cleared j user hs with hsince | hnone
    · exact .inl (.inr hsince)
    refine .inr (activeAuthCode_eq_none.mpr fun code hcode hu hl => ?_)
    rcases hcodes.live_cases hnow hcode hl with ⟨r, hr, hlr, hrc⟩ | ⟨hnew, -⟩
    · exact activeAuthCode_eq_none.mp hnone r hr (hrc.sameUser.symm.trans hu) hlr
    · exact hfor (hu ▸ hnew)

theorem SendsHold.later_called (hS : SendsHold P) (hcodes : CodesAfter c P.sys.store call s)
    {user : Uuid} {k : ℕ} (hk : s.created user < k) :
    wrongGuesses user k (⟨⟨n, op⟩, P.sys.store, call, answer⟩ :: P.sys.log) = [] := by
  have hle : P.sys.store.created user ≤ s.created user := by
    rcases hcodes.created_eq user with heq | ⟨-, heq⟩
    · exact heq.ge
    · exact heq ▸ Nat.le_succ _
  have hlt : P.sys.store.created user < k := Nat.lt_of_le_of_lt hle hk
  rw [wrongGuesses_cons_ne hlt.ne]
  exact hS.later user k hlt

/-- A wrong guess raises the count of the live code; no other call lowers one. -/
theorem SendsHold.counted_called (hS : SendsHold P) (hcodes : CodesAfter c P.sys.store call s)
    (hnow : s.now = P.sys.store.now) (halone : InsertsAlone P call)
    (ok : ∀ a, answer = .ok a → exec c call P.sys.store = (.ok a, s)) {code : AuthCode}
    (hcode : code ∈ s.authCodes) (hl : s.Live code) :
    (wrongGuesses code.userId (s.created code.userId)
      (⟨⟨n, op⟩, P.sys.store, call, answer⟩ :: P.sys.log)).length ≤ code.attemptCount := by
  rcases hcodes.live_cases hnow hcode hl with ⟨r, hr, hlr, hrc⟩ | ⟨hfor, -, hcount⟩
  · have hsame : s.created code.userId = P.sys.store.created r.userId := by
      rw [← hrc.sameUser]
      rcases hcodes.created_eq code.userId with heq | ⟨hfor, -⟩
      · exact heq
      · exact absurd hlr (halone _ hfor r hr hrc.sameUser.symm)
    have hbefore := hS.counted r hr hlr
    rw [hsame, hrc.sameUser]
    cases hmiss : misses r.userId ⟨⟨n, op⟩, P.sys.store, call, answer⟩ with
    | true =>
      obtain ⟨-, a, hactive, hafter⟩ := missed ok hmiss
      obtain ⟨ha, hu, hla⟩ := activeAuthCode_eq_some hactive
      obtain rfl := hS.sole a ha r hr hu hla hlr
      rcases hafter code hcode hl.1 with ⟨-, hid⟩ | hraised
      · exact absurd hrc.sameId hid
      · rw [hraised]
        exact wrongGuesses_cons_le.trans (Nat.succ_le_succ hbefore)
    | false =>
      rw [wrongGuesses_cons_of_not_misses hmiss]
      exact hbefore.trans hrc.guesses
  -- at the one inserted nobody has guessed
  · have hlt : P.sys.store.created code.userId < s.created code.userId := by omega
    rw [wrongGuesses_cons_ne hlt.ne, hS.later _ _ hlt]
    exact Nat.zero_le _

theorem SendsHold.budget_called (hS : SendsHold P)
    (hspent : ∀ code ∈ P.sys.store.authCodes, code.usedAt = none →
      code.attemptCount < maxAuthCodeAttempts)
    (ok : ∀ a, answer = .ok a → exec c call P.sys.store = (.ok a, s)) {user : Uuid} {k : ℕ} :
    (wrongGuesses user k (⟨⟨n, op⟩, P.sys.store, call, answer⟩ :: P.sys.log)).length ≤
      maxAuthCodeAttempts := by
  cases hmiss : misses user ⟨⟨n, op⟩, P.sys.store, call, answer⟩ with
  | false =>
    rw [wrongGuesses_cons_of_not_misses hmiss]
    exact hS.budget user k
  | true =>
    by_cases hk : P.sys.store.created user = k
    · obtain ⟨-, a, hactive, -⟩ := missed ok hmiss
      obtain ⟨ha, rfl, hla⟩ := activeAuthCode_eq_some hactive
      have hbefore := hS.counted a ha hla
      have hleft := hspent a ha hla.1
      rw [← hk]
      exact wrongGuesses_cons_le.trans (by omega)
    · rw [wrongGuesses_cons_ne hk]
      exact hS.budget user k

end Called

theorem sends_hold (hP : Run c SendsApart P) : SendsHold P := by
  induction hP using Run.happening with
  | start hidle =>
    obtain ⟨now, rfl⟩ := hidle
    exact ⟨nofun, fun n user h => by simp [Saw] at h, nofun, fun _ _ _ => rfl,
      fun _ _ => Nat.zero_le _⟩
  | @next P m P' hP _ hg hhappens ih =>
    cases hhappens with
    | nothing => exact ih
    | arrival => exact ⟨ih.sole, ih.cleared, ih.counted, ih.later, ih.budget⟩
    | tick seconds => exact ih.tick seconds
    | call n fate op call k s answer thread effect makes ok =>
      have hkept := codes_kept hP
      have hcodes := effect.codes hkept.distinct makes.maxAttempts
      have halone := ih.alone hP thread (hg.of_thread thread)
      have hexec : ∀ a, answer = .ok a → exec c call P.sys.store = (.ok a, s) :=
        fun a ha => (ok a ha).2
      refine ⟨?_, ?_, ?_, ?_, ?_⟩
      · intro a ha b hb hu hla hlb
        exact ih.sole_called hkept.distinct hcodes effect.now halone ha hb hu hla hlb
      · exact fun j user hs => ih.cleared_called hcodes effect.now hexec hs
      · exact fun code hcode hl => ih.counted_called hcodes effect.now halone hexec hcode hl
      · exact fun user k hk => ih.later_called hcodes hk
      · exact fun user k => ih.budget_called hkept.spent hexec

/-- **One live code, five guesses.** -/
theorem one_live_code (hP : Run c SendsApart P) : OneLiveCode P := by
  have hsends := sends_hold hP
  refine ⟨fun user => ?_, codes_succeed_once hP, hsends.budget⟩
  have hnodup : P.sys.store.authCodes.Nodup := (codes_kept hP).distinct.of_map
  have hlive : ∀ code ∈ P.sys.store.liveCodes user, code ∈ P.sys.store.authCodes ∧
      code.userId = user ∧ P.sys.store.Live code := by
    intro code hcode
    obtain ⟨hmem, hcode⟩ := List.mem_filter.mp hcode
    exact ⟨hmem, of_decide_eq_true hcode⟩
  have hnodup : (P.sys.store.liveCodes user).Nodup := hnodup.filter _
  cases hcodes : P.sys.store.liveCodes user with
  | nil => exact Nat.zero_le 1
  | cons a rest =>
    cases rest with
    | nil => exact Nat.le_refl 1
    | cons b rest =>
      rw [hcodes] at hlive hnodup
      obtain ⟨ha, hua, hla⟩ := hlive a List.mem_cons_self
      obtain ⟨hb, hub, hlb⟩ := hlive b (List.mem_cons_of_mem _ List.mem_cons_self)
      have heq := hsends.sole a ha b hb (hua.trans hub.symm) hla hlb
      exact absurd (heq ▸ List.mem_cons_self) (List.nodup_cons.mp hnodup).1

/-- A send of the code `code`; the handle is that of a new user. -/
def sending (email code handle : String) : Op :=
  ⟨.sendAuthEmail ⟨email⟩, ⟨"", code, 0, "", [handle]⟩⟩

/-- A guess of the code `code`. -/
def guessing (email code : String) : Op := ⟨.verifyAuthCode ⟨email, code⟩, ⟨code, "", 0, "", []⟩⟩

/-- A code is sent and guessed wrong, and a second one is sent. -/
def sentAgain : AuthPool :=
  play (authNext plainSetup)
    (alone 0 8 (sending "a@x" "1" "a") ++ alone 1 2 (guessing "a@x" "7") ++
      .env 30 :: alone 2 6 (sending "a@x" "2" "")) idlePool

example : sentAgain.sys.store.created 0 = 2 ∧ (wrongGuesses 0 1 sentAgain.sys.log).length = 1 := by
  decide +kernel

theorem one_live_code_sentAgain : OneLiveCode sentAgain :=
  one_live_code (c := plainSetup) (reach_play (.start idle_idlePool) (by decide +kernel))

/-- A second send inserts its code between the two statements of the first. -/
def sentTwice : AuthPool :=
  play (authNext plainSetup)
    (.start (sending "a@x" "1" "a") :: calls 0 6 ++ .env 30 :: .start (sending "a@x" "2" "") ::
      calls 1 5 ++ calls 0 1) idlePool

theorem not_one_live_code :
    ¬ ∀ P, Run plainSetup (fun _ _ => True) P → OneLiveCode P := by
  intro h
  have hlive := (h sentTwice (reach_play (.start idle_idlePool) guarded_true)).live 0
  exact absurd hlive (by decide +kernel)

end Auth
end Gitdot
