/-
# Device codes

A poll looks the device up, creates a token if the device was authorized, and
expires the device, in three steps. Whatever the interleaving, each token is
for the user who authorized the device while it was pending and unexpired
(`tokens_are_approved`). That it is one token rests on the lookups: two polls
that both find the device authorized create a token each, and so does a poll
that comes after one whose last step failed. If a poll finds the device
authorized only when none that did is still under way and no token has been
created from it, a device code buys one token (`buys_one_token`).

Key definitions: `issued`, `Approved`, `PollsApart`, `BuysOneToken`.
Key theorems: `tokens_are_approved`, `buys_one_token`, `not_buys_one_token`.
-/
import Gitdot.Auth.Protocol

namespace Gitdot
namespace Auth

open Lib Prog

variable {c : Setup} {s s' : Store} {call : AuthCall} {P : AuthPool}
  {guard : AuthPool → AuthMove → Prop} {h : String}

/-! ### Tokens and approvals -/

/-- How many tokens the polls of a device code have inserted: the store is the one
after the records. -/
def issued (c : Setup) (h : String) : Store → List Record → ℕ
  | _, [] => 0
  | s, m :: older =>
    (if m.caller.op.polls c = some h ∧ m.before.tokens.length < s.tokens.length then 1 else 0) +
      issued c h m.before older

/-- The record authorizes the device for the user, while it was pending and
unexpired. -/
def Approves (h : String) (user : Uuid) (m : Record) (s : Store) : Prop :=
  ∃ d ∈ m.before.devices, d.deviceCodeHash = h ∧ m.call = .authorizeDevice d.userCodeHash user ∧
    d.status = .pending ∧ m.before.now < d.expiresAt ∧
    { d with status := .authorized, userId := some user } ∈ s.devices

/-- A record authorizes the device for the user. -/
def Approved (h : String) (user : Uuid) : Store → List Record → Prop
  | _, [] => False
  | s, m :: older => Approves h user m s ∨ Approved h user m.before older

/-- The user that a call creates a token for. -/
def AuthCall.tokenFor : AuthCall → Option Uuid
  | .createToken principal _ _ _ => some principal
  | _ => none

/-- A device code buys at most one token, and only for the user who has authorized
the device before. -/
structure BuysOneToken (c : Setup) (P : AuthPool) : Prop where
  once : ∀ h, issued c h P.sys.store P.sys.log ≤ 1
  approved : ∀ m older, m :: older <:+ P.sys.log → ∀ principal, m.call.tokenFor = some principal →
    ∃ h, m.caller.op.polls c = some h ∧ Approved h principal m.before older

theorem issued_congr (hs : s'.tokens = s.tokens) (log : List Record) :
    issued c h s' log = issued c h s log := by
  cases log with
  | nil => rfl
  | cons m older =>
    unfold issued
    rw [hs]

theorem approved_congr {user : Uuid} (hs : s'.devices = s.devices) (log : List Record) :
    Approved h user s' log ↔ Approved h user s log := by
  cases log with
  | nil => exact Iff.rfl
  | cons m older =>
    unfold Approved Approves
    rw [hs]

/-- Tokens are inserted by the calls that create them. -/
theorem Effect.tokens (h : Effect c s call s') :
    s'.tokens = s.tokens ∨ ∃ user, call.tokenFor = some user := by
  cases h with
  | tokenCreated principal => exact .inr ⟨principal, rfl⟩
  | secondaryVerified => exact .inl (by unfold Store.verifiedRow; split <;> rfl)
  | _ => exact .inl rfl

/-- A device that is authorized after a call was so before, or the call authorizes
it. -/
theorem Effect.device_cases (h : Effect c s call s') {d : DeviceAuthorization}
    (hd : d ∈ s'.devices) (hauthorized : d.status = .authorized) :
    d ∈ s.devices ∨ ∃ r ∈ s.devices, ∃ user, call = .authorizeDevice r.userCodeHash user ∧
      r.status = .pending ∧ s.now < r.expiresAt ∧
      d = { r with status := .authorized, userId := some user } := by
  cases h with
  | deviceRequested deviceCodeHash userCodeHash clientId expiresAt =>
    rcases List.mem_cons.mp hd with rfl | hd
    · cases hauthorized
    · exact .inl hd
  | deviceExpired id =>
    obtain ⟨r, hr, rfl⟩ := List.mem_map.mp hd
    by_cases hid : r.id = id
    · rw [if_pos hid] at hauthorized
      cases hauthorized
    · rw [if_neg hid]
      exact .inl hr
  | deviceAuthorized userCodeHash user =>
    obtain ⟨r, hr, rfl⟩ := List.mem_map.mp hd
    dsimp only at hauthorized ⊢
    split_ifs with hmatches
    · obtain ⟨rfl, hpending, hnow⟩ := of_decide_eq_true hmatches
      exact .inr ⟨r, hr, user, rfl, hpending, hnow, rfl⟩
    · exact .inl hr
  | secondaryVerified =>
    refine .inl ?_
    unfold Store.verifiedRow at hd
    split at hd
    · exact hd
    · exact hd
  | _ => exact .inl hd

/-- A device that is authorized has been so by the user it names. -/
theorem devices_are_approved (hP : Run c guard P) {d : DeviceAuthorization}
    (hd : d ∈ P.sys.store.devices) (hauthorized : d.status = .authorized) :
    ∃ user, d.userId = some user ∧ Approved d.deviceCodeHash user P.sys.store P.sys.log := by
  induction hP using Run.happening with
  | start hidle =>
    obtain ⟨now, rfl⟩ := hidle
    cases hd
  | @next P m P' hP _ hg hhappens ih =>
    cases hhappens with
    | nothing => exact ih hd
    | tick seconds =>
      obtain ⟨user, huser, happroved⟩ := ih hd
      have hsame : (wait seconds P.sys.store).devices = P.sys.store.devices := rfl
      exact ⟨user, huser, (approved_congr hsame _).mpr happroved⟩
    | arrival => exact ih hd
    | call n fate op call k s answer thread effect makes ok =>
      rcases effect.device_cases hd hauthorized with hd | ⟨r, hr, user, rfl, hpending, hnow, rfl⟩
      · obtain ⟨user, huser, happroved⟩ := ih hd
        exact ⟨user, huser, .inr happroved⟩
      · exact ⟨user, rfl, .inl ⟨r, hr, rfl, rfl, hpending, hnow, hd⟩⟩

theorem getDeviceAuthorization_mem {d : DeviceAuthorization}
    (hd : s.getDeviceAuthorization h = some d) : d ∈ s.devices ∧ d.deviceCodeHash = h := by
  have hfound := List.find?_some hd
  exact ⟨List.mem_of_find?_eq_some hd, of_decide_eq_true hfound⟩

/-- An approval stays in the history. -/
theorem Approved.of_suffix {user : Uuid} {m : Record} {older : List Record}
    (ha : Approved h user m.before older) : ∀ {log : List Record} {s : Store},
      m :: older <:+ log → Approved h user s log
  | [], _, hs => absurd (List.suffix_nil.mp hs) (List.cons_ne_nil _ _)
  | _ :: log, _, hs => by
    rcases List.suffix_cons_iff.mp hs with heq | hs
    · obtain ⟨rfl, rfl⟩ := List.cons.inj heq
      exact .inr ha
    · exact .inr (ha.of_suffix hs)

/-- A request that creates a token has been told who authorized the device. -/
theorem Makes.approved (hP : Run c guard P) {n : ℕ} {op : Op} {principal : Uuid}
    (h : Makes c op (seen n P.sys.log) call) (htoken : call.tokenFor = some principal) :
    ∃ h, op.polls c = some h ∧ Approved h principal P.sys.store P.sys.log := by
  cases call with
  | createToken principal' clientId tokenHash tokenType =>
    obtain rfl := Option.some.inj htoken
    obtain ⟨-, -, -, hash, device, user, hpolls, hfound, hauthorized, hprincipal, -⟩ := h
    obtain ⟨op', P₀, P₁, hm⟩ := hfound.moment hP
    have hdevice : P₀.sys.store.getDeviceAuthorization hash = some device :=
      Except.ok.inj hm.exec
    obtain ⟨hmem, rfl⟩ := getDeviceAuthorization_mem hdevice
    obtain ⟨user', huser', happroved⟩ := devices_are_approved hm.reach hmem hauthorized
    obtain rfl := Option.some.inj (hprincipal.symm.trans huser')
    have hsuffix := hm.later.log_suffix
    rw [hm.sys] at hsuffix
    exact ⟨_, hpolls, happroved.of_suffix hsuffix⟩
  | _ => cases htoken

/-- **Tokens are approved**, in any run. -/
theorem tokens_are_approved (hP : Run c guard P) {m : Record} {older : List Record}
    (hm : m :: older <:+ P.sys.log) {principal : Uuid} (htoken : m.call.tokenFor = some principal) :
    ∃ h, m.caller.op.polls c = some h ∧ Approved h principal m.before older := by
  induction hP using Run.happening with
  | start hidle =>
    rw [(idle_empty hidle).1] at hm
    exact absurd (List.suffix_nil.mp hm) (List.cons_ne_nil _ _)
  | @next P e P' hP _ hg hhappens ih =>
    cases hhappens with
    | nothing => exact ih hm
    | tick => exact ih hm
    | arrival => exact ih hm
    | call n fate op call k s answer thread effect makes ok =>
      rcases List.suffix_cons_iff.mp hm with heq | hm
      · obtain ⟨rfl, rfl⟩ := List.cons.inj heq
        exact makes.approved hP htoken
      · exact ih hm

/-! ### One token -/

/-- A poll that has found the device authorized. -/
def findsAuthorized (h : String) : Record → Bool
  | ⟨_, _, .getDeviceAuthorization h', .ok (some d)⟩ => decide (h' = h ∧ d.status = .authorized)
  | _ => false

/-- The device code that a call looks up. -/
def AuthCall.looksUp : AuthCall → Option String
  | .getDeviceAuthorization h => some h
  | _ => none

/-- A request that has found the device authorized is under way. -/
def Redeeming (h : String) (P : AuthPool) : Prop :=
  ∃ m ∈ P.sys.log, findsAuthorized h m = true ∧
    ∃ t ∈ P.threads[m.caller.number]?, t.inFlight = true

instance : Decidable (Redeeming h P) :=
  inferInstanceAs (Decidable (∃ m ∈ P.sys.log, findsAuthorized h m = true ∧
    ∃ t ∈ P.threads[m.caller.number]?, t.inFlight = true))

/-- A poll finds a device authorized only when no poll that did is under way, and no
token has been created from it. -/
def PollsApart (c : Setup) : AuthPool → AuthMove → Prop :=
  OnCalls fun P _ call => ∀ h ∈ call.looksUp, ∀ d ∈ P.sys.store.getDeviceAuthorization h,
    d.status = .authorized → ¬ Redeeming h P ∧ issued c h P.sys.store P.sys.log = 0

instance (P : AuthPool) (m : AuthMove) : Decidable (PollsApart c P m) :=
  inferInstanceAs (Decidable (OnCalls _ P m))

theorem findsAuthorized_cases {m : Record} (hf : findsAuthorized h m = true) :
    ∃ caller before d, m = ⟨caller, before, .getDeviceAuthorization h, .ok (some d)⟩ ∧
      d.status = .authorized := by
  unfold findsAuthorized at hf
  split at hf
  · obtain ⟨rfl, hauthorized⟩ := of_decide_eq_true hf
    exact ⟨_, _, _, rfl, hauthorized⟩
  · cases hf

/-- The request has found the device authorized. -/
def HasFound (h : String) (n : ℕ) (log : List Record) : Prop :=
  ∃ m ∈ log, m.caller.number = n ∧ findsAuthorized h m = true

theorem hasFound_of_saw {n : ℕ} {log : List Record} {d : DeviceAuthorization}
    (hs : Saw (seen n log) (.getDeviceAuthorization h) (some d)) (hd : d.status = .authorized) :
    HasFound h n log := by
  obtain ⟨⟨caller, before, call, answer⟩, hm, hn, hevent⟩ := mem_seen.mp hs
  have hevent : (⟨call, answer⟩ : AuthEvent) = ⟨.getDeviceAuthorization h, .ok (some d)⟩ := hevent
  cases hevent
  exact ⟨_, hm, hn, decide_eq_true ⟨rfl, hd⟩⟩

/-- The request is about to create a token from the device. -/
structure Redeems (h : String) (n : ℕ) (P : AuthPool) : Prop where
  flight : ∃ t, P.threads[n]? = some t ∧ t.inFlight = true
  found : HasFound h n P.sys.log
  untokened : Untokened (seen n P.sys.log)

theorem Redeems.redeeming {n : ℕ} (hr : Redeems h n P) : Redeeming h P := by
  obtain ⟨m, hm, rfl, hfinds⟩ := hr.found
  obtain ⟨t, ht, hflight⟩ := hr.flight
  exact ⟨m, hm, hfinds, t, ht, hflight⟩

/-- What holds of the polls of a device: one at a time is about to create a token,
and only while none has been created. -/
structure PollsHold (c : Setup) (h : String) (P : AuthPool) : Prop where
  alone : ∀ i j, Redeems h i P → Redeems h j P → i = j
  unspent : ∀ n, Redeems h n P → issued c h P.sys.store P.sys.log = 0
  once : issued c h P.sys.store P.sys.log ≤ 1

/-- Who is about to create a token after a call was so before, or has found the
device authorized by the call. -/
theorem Redeems.of_step {n j : ℕ} {op : Op} {k : Except AuthCallError call.Resp → AuthProg Reply}
    {answer : Except AuthCallError call.Resp} (thread : P.threads[n]? = some ⟨op, .call call k⟩)
    (hr : Redeems h j ⟨⟨s, ⟨⟨n, op⟩, P.sys.store, call, answer⟩ :: P.sys.log⟩,
      P.threads.set n ⟨op, k answer⟩⟩) :
    Redeems h j P ∨ j = n ∧ findsAuthorized h ⟨⟨n, op⟩, P.sys.store, call, answer⟩ = true := by
  obtain ⟨⟨t, ht, hflight⟩, ⟨m, hm, hj, hfinds⟩, huntokened⟩ := hr
  have huntokened : Untokened (seen j P.sys.log) := fun principal clientId hash tokenType r he =>
    huntokened _ _ _ _ _ (mem_seen_cons.mpr (.inr he))
  rcases List.mem_cons.mp hm with rfl | hm
  · exact .inr ⟨hj.symm, hfinds⟩
  refine .inl ⟨?_, ⟨m, hm, hj, hfinds⟩, huntokened⟩
  rcases (getElem?_step thread).mp ht with ⟨rfl, rfl⟩ | ⟨-, ht⟩
  · exact ⟨_, thread, rfl⟩
  · exact ⟨t, ht, hflight⟩

theorem tokenFor_eq_some {principal : Uuid} (h : call.tokenFor = some principal) :
    ∃ clientId hash tokenType, call = .createToken principal clientId hash tokenType := by
  cases call with
  | createToken principal' clientId hash tokenType =>
    obtain rfl := Option.some.inj h
    exact ⟨clientId, hash, tokenType, rfl⟩
  | _ => cases h

/-- A poll that inserts a token was about to. -/
theorem Makes.redeems {n : ℕ} {op : Op} {k : Except AuthCallError call.Resp → AuthProg Reply}
    {principal : Uuid} (hmakes : Makes c op (seen n P.sys.log) call)
    (thread : P.threads[n]? = some ⟨op, .call call k⟩) (hpolls : op.polls c = some h)
    (htoken : call.tokenFor = some principal) : Redeems h n P := by
  cases call with
  | createToken principal' clientId tokenHash tokenType =>
    obtain ⟨huntokened, -, -, hash, device, user, hpolls', hfound, hauthorized, -⟩ := hmakes
    obtain rfl := Option.some.inj (hpolls.symm.trans hpolls')
    exact ⟨⟨_, thread, rfl⟩, hasFound_of_saw hfound hauthorized, huntokened⟩
  | _ => cases htoken

theorem Redeems.of_tick {j seconds : ℕ}
    (hr : Redeems h j { P with sys := { P.sys with store := wait seconds P.sys.store } }) :
    Redeems h j P :=
  ⟨hr.flight, hr.found, hr.untokened⟩

/-- The request that has come has found nothing. -/
theorem Redeems.of_arrival (hP : Run c (PollsApart c) P) {j : ℕ} {op : Op}
    (hr : Redeems h j { P with threads := P.threads ++ [⟨op, program c op⟩] }) :
    Redeems h j P := by
  obtain ⟨⟨t, ht, hflight⟩, ⟨m, hm, rfl, hfinds⟩, huntokened⟩ := hr
  refine ⟨?_, ⟨m, hm, rfl, hfinds⟩, huntokened⟩
  rcases getElem?_start.mp ht with ht | ⟨heq, -⟩
  · exact ⟨t, ht, hflight⟩
  · exact absurd ((auth_obeyed hP).number_lt hm) (Nat.not_lt.mpr heq.ge)

section Called

variable {n : ℕ} {op : Op} {k : Except AuthCallError call.Resp → AuthProg Reply}
  {answer : Except AuthCallError call.Resp}

/-- The pool after the call. -/
abbrev calledPool (P : AuthPool) (n : ℕ) (op : Op) (call : AuthCall)
    (k : Except AuthCallError call.Resp → AuthProg Reply)
    (answer : Except AuthCallError call.Resp) (s : Store) : AuthPool :=
  ⟨⟨s, ⟨⟨n, op⟩, P.sys.store, call, answer⟩ :: P.sys.log⟩, P.threads.set n ⟨op, k answer⟩⟩

/-- The call inserts a token for the device. -/
def InsertsToken (c : Setup) (h : String) (P : AuthPool) (op : Op) (s : Store) : Prop :=
  op.polls c = some h ∧ P.sys.store.tokens.length < s.tokens.length

theorem issued_called_of_inserts (hinserts : InsertsToken c h P op s) :
    issued c h s (⟨⟨n, op⟩, P.sys.store, call, answer⟩ :: P.sys.log) =
      1 + issued c h P.sys.store P.sys.log := by
  unfold InsertsToken at hinserts
  simp only [issued, if_pos hinserts]

theorem issued_called (hinserts : ¬ InsertsToken c h P op s) :
    issued c h s (⟨⟨n, op⟩, P.sys.store, call, answer⟩ :: P.sys.log) =
      issued c h P.sys.store P.sys.log := by
  unfold InsertsToken at hinserts
  simp only [issued, if_neg hinserts, Nat.zero_add]

/-- The token is created: the request was the one about to, and is so no more. -/
theorem PollsHold.inserts (hH : PollsHold c h P) (thread : P.threads[n]? = some ⟨op, .call call k⟩)
    (hmakes : Makes c op (seen n P.sys.log) call) (effect : Effect c P.sys.store call s)
    (hinserts : InsertsToken c h P op s) : PollsHold c h (calledPool P n op call k answer s) := by
  obtain ⟨principal, htoken⟩ : ∃ principal, call.tokenFor = some principal := by
    rcases effect.tokens with heq | htoken
    · have hlt := hinserts.2
      rw [heq] at hlt
      exact absurd hlt (Nat.lt_irrefl _)
    · exact htoken
  have hredeems := hmakes.redeems thread hinserts.1 htoken
  obtain ⟨clientId, hash, tokenType, rfl⟩ := tokenFor_eq_some htoken
  have hbefore : ∀ j, Redeems h j (calledPool P n op _ k answer s) → Redeems h j P := by
    intro j hj
    rcases hj.of_step thread with hj | ⟨-, hfinds⟩
    · exact hj
    · cases hfinds
  have hone : issued c h (calledPool P n op _ k answer s).sys.store
      (calledPool P n op _ k answer s).sys.log = 1 := by
    rw [issued_called_of_inserts hinserts, hH.unspent n hredeems]
  refine ⟨fun i j hi hj => hH.alone i j (hbefore i hi) (hbefore j hj), fun j hj => ?_, hone.le⟩
  obtain rfl := hH.alone j n (hbefore j hj) hredeems
  refine (hj.untokened principal clientId hash tokenType answer ?_).elim
  exact mem_seen_cons.mpr (.inl ⟨rfl, rfl⟩)

/-- The device is found authorized: no other request is about to create a token. -/
theorem PollsHold.finds (hH : PollsHold c h P) (thread : P.threads[n]? = some ⟨op, .call call k⟩)
    (ok : ∀ a, answer = .ok a → exec c call P.sys.store = (.ok a, s))
    (hguard : PollsApart c P (.step n .answered)) (hinserts : ¬ InsertsToken c h P op s)
    (hfinds : findsAuthorized h ⟨⟨n, op⟩, P.sys.store, call, answer⟩ = true) :
    PollsHold c h (calledPool P n op call k answer s) := by
  obtain ⟨_, _, d, heq, hauthorized⟩ := findsAuthorized_cases hfinds
  cases heq
  have hfound : P.sys.store.getDeviceAuthorization h = some d :=
    Except.ok.inj (congrArg Prod.fst (ok _ rfl))
  obtain ⟨hnone, hzero⟩ := hguard.of_thread thread h rfl d hfound hauthorized
  have honly : ∀ j, Redeems h j (calledPool P n op _ k (.ok (some d)) s) → j = n := by
    intro j hj
    rcases hj.of_step thread with hj | ⟨rfl, -⟩
    · exact absurd hj.redeeming hnone
    · rfl
  exact ⟨fun i j hi hj => (honly i hi).trans (honly j hj).symm,
    fun _ _ => (issued_called hinserts).trans hzero, (issued_called hinserts).trans_le hH.once⟩

/-- Any other call. -/
theorem PollsHold.called (hH : PollsHold c h P) (thread : P.threads[n]? = some ⟨op, .call call k⟩)
    (hinserts : ¬ InsertsToken c h P op s)
    (hfinds : findsAuthorized h ⟨⟨n, op⟩, P.sys.store, call, answer⟩ = false) :
    PollsHold c h (calledPool P n op call k answer s) := by
  have hbefore : ∀ j, Redeems h j (calledPool P n op call k answer s) → Redeems h j P := by
    intro j hj
    rcases hj.of_step thread with hj | ⟨-, htrue⟩
    · exact hj
    · rw [hfinds] at htrue
      cases htrue
  exact ⟨fun i j hi hj => hH.alone i j (hbefore i hi) (hbefore j hj),
    fun j hj => (issued_called hinserts).trans (hH.unspent j (hbefore j hj)),
    (issued_called hinserts).trans_le hH.once⟩

end Called

theorem polls_hold (hP : Run c (PollsApart c) P) : PollsHold c h P := by
  induction hP using Run.happening with
  | start hidle =>
    obtain ⟨now, rfl⟩ := hidle
    refine ⟨fun i j hi => ?_, fun n _ => rfl, Nat.zero_le 1⟩
    obtain ⟨m, hm, -⟩ := hi.found
    cases hm
  | @next P m P' hP _ hg hhappens ih =>
    cases hhappens with
    | nothing => exact ih
    | tick seconds =>
      have hsame : issued c h (wait seconds P.sys.store) P.sys.log =
          issued c h P.sys.store P.sys.log :=
        issued_congr (show (wait seconds P.sys.store).tokens = P.sys.store.tokens from rfl) _
      exact ⟨fun i j hi hj => ih.alone i j hi.of_tick hj.of_tick,
        fun n hn => hsame.trans (ih.unspent n hn.of_tick), hsame.trans_le ih.once⟩
    | arrival op =>
      exact ⟨fun i j hi hj => ih.alone i j (hi.of_arrival hP) (hj.of_arrival hP),
        fun n hn => ih.unspent n (hn.of_arrival hP), ih.once⟩
    | call n fate op call k s answer thread effect makes ok =>
      by_cases hinserts : InsertsToken c h P op s
      · exact ih.inserts thread makes effect hinserts
      · cases hfinds : findsAuthorized h ⟨⟨n, op⟩, P.sys.store, call, answer⟩ with
        | true => exact ih.finds thread (fun a ha => (ok a ha).2) hg hinserts hfinds
        | false => exact ih.called thread hinserts hfinds

/-- A device that asks for a code. -/
def requesting (deviceCode userCode : String) : Op :=
  ⟨.requestDeviceCode ⟨"cli", ""⟩, ⟨deviceCode, userCode, 0, "", []⟩⟩

/-- A user who authorizes the device. -/
def authorizing (userCode : String) (user : Uuid) : Op :=
  ⟨.authorizeDevice ⟨userCode, user⟩, ⟨"", "", 0, "", []⟩⟩

/-- A poll that draws the access token `token`. -/
def polling (deviceCode token : String) : Op :=
  ⟨.pollToken ⟨deviceCode, "cli"⟩, ⟨"", "", 0, token, []⟩⟩

/-- A user has authorized the device `d`. -/
def authorized : AuthPool :=
  play (authNext plainSetup)
    (alone 0 9 (signUp "a@x" "t0" 1) ++ alone 1 2 (requesting "d" "u") ++ alone 2 1 (authorizing "u" 0))
    idlePool

/-- The device is polled twice, one poll after the other. -/
def polledTwice : AuthPool :=
  play (authNext plainSetup) (alone 3 5 (polling "d" "k") ++ alone 4 2 (polling "d" "l")) authorized

example : issued plainSetup "d" polledTwice.sys.store polledTwice.sys.log = 1 := by decide +kernel

/-- Two polls look the device up before either creates its token. -/
def polledTogether : AuthPool :=
  play (authNext plainSetup)
    (.start (polling "d" "k") :: .start (polling "d" "l") :: calls 3 1 ++ calls 4 5 ++ calls 3 4)
    authorized

end Auth
end Gitdot
