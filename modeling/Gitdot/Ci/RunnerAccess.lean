/-
# Who controls a runner

A runner belongs to a user or to an organization. Of the handlers for
runners only the one that registers a runner uses who its caller is, and that
only to fill in the owner of a user's runner: none asks if the caller holds
the name in the path or controls the runner found there.

`OwnersOnly` says of one request that if it succeeds its caller is the owner,
or a member of the organization that is; `MayAsk` is when that is so.
`ensures_createRunner` and its likes say what the services do when they succeed,
`ownersOnly_iff` follows from them request by request, and
`owner_controls_runner` is about all steps of all runs.

Key definitions: `HoldsName`, `Controls`, `Entitled`, `OwnersOnly`, `MayAsk`,
`RunnerStep`, `runnerStep`.
Key theorems: `ensures_createRunner`, `ensures_refreshRunnerToken`, `ensures_deleteRunner`,
`ownersOnly_iff`, `owner_controls_runner`.
-/
import Gitdot.Ci.Runners

namespace Gitdot
namespace Ci

open Lib Prog Auth

/-! ### Owners -/

/-- The caller is the user of this name, or a member of the organization of this
name. -/
def HoldsName (w : World) (caller : Uuid) (ownerType : RunnerOwnerType) (name : String) : Prop :=
  match ownerType with
  | .user => ∃ user ∈ w.users.get? caller, user.name = name
  | .organization => ∃ org ∈ w.getOrganization name, w.isMember org.id caller = true

/-- The caller is the runner's owner, or a member of the organization that is. -/
def Controls (w : World) (caller : Uuid) (runner : Runner) : Prop :=
  match runner.ownerType with
  | .user => runner.ownerId = caller
  | .organization => w.isMember runner.ownerId caller = true

/-- The token is accepted as the runner's. -/
def Opens (c : RunnerSetup) (s : RunnerStore) (token : String) (runner : Runner) : Prop :=
  ∃ t ∈ s.tokens, t.tokenHash = c.hashString token ∧ t.tokenType = .runner ∧
    t.principalId = runner.id

/-- The caller is entitled to what a request returned and did: to the runner it
made, to the runners its token opens, to those it listed and to those it
removed; and holds the name it made or listed them under. -/
structure Entitled (c : RunnerSetup) (s : RunnerStore) (caller : Uuid) (owner : String)
    (reply : RunnerReply) (s' : RunnerStore) : Prop where
  made : ∀ runner, reply = .runner runner →
    HoldsName s.core caller runner.ownerType owner ∧ Controls s.core caller runner
  opened : ∀ token, reply = .token token →
    ∀ runner ∈ s.runners.rows, Opens c s' token runner → Controls s.core caller runner
  listed : ∀ page, reply = .page page → (∃ ownerType, HoldsName s.core caller ownerType owner) ∧
    ∀ runner ∈ page.data, Controls s.core caller runner
  removed : ∀ runner ∈ s.runners.rows, s'.runners.get? runner.id = none →
    Controls s.core caller runner

/-- The owner in the path. -/
def RunnerRequest.owner : RunnerRequest → String
  | .createRunner owner _ _ => owner
  | .refreshRunnerToken owner _ => owner
  | .listRunners owner _ _ => owner
  | .deleteRunner owner _ => owner

/-- Whichever of its calls fail, if the request succeeds its caller was
entitled. -/
def OwnersOnly (c : RunnerSetup) (s : RunnerStore) (d : RunnerDraws) (caller : Uuid)
    (request : RunnerRequest) : Prop :=
  ∀ plan reply, ((handleRunner c d caller request).run (runnerCalls c) plan s).1 = .ok reply →
    Entitled c s caller request.owner reply
      ((handleRunner c d caller request).run (runnerCalls c) plan s).2

/-! ### What lets a request through -/

/-- The id of the owner that a request to register a runner names. -/
def ownerIdOf (w : World) (caller : Uuid) (ownerType : RunnerOwnerType) (owner : String) :
    Option Uuid :=
  match ownerType with
  | .user => some caller
  | .organization => (w.getOrganization owner).map Organization.id

/-- The unique indexes admit the new row. -/
def AdmitsRunner (s : RunnerStore) (id ownerId : Uuid) (name : String) : Prop :=
  s.runners.get? id = none ∧
    ∀ runner ∈ s.runners.rows, ¬ (runner.ownerId = ownerId ∧ runner.name = name)

/-- The columns of `auth.tokens` admit a new token of the runner, its old ones
being gone. -/
def AdmitsToken (c : RunnerSetup) (s : RunnerStore) (d : RunnerDraws) (runner : Runner)
    (owner name : String) : Prop :=
  (runnerClientId owner name).length ≤ 64 ∧
    ∀ t ∈ s.tokens, t.principalId ≠ runner.id →
      t.id ≠ d.id ∧ t.tokenHash ≠ c.hashString d.rawToken

/-- No task refers to the runner. -/
def Idle (s : RunnerStore) (runner : Runner) : Prop := ∀ t ∈ s.tasks.rows, t.runnerId ≠ some runner.id

/-- Where the store would let the request through, its caller is the owner or a
member of the organization that is. -/
def MayAsk (c : RunnerSetup) (s : RunnerStore) (d : RunnerDraws) (caller : Uuid) :
    RunnerRequest → Prop
  | .createRunner owner name ownerType => ∀ type ownerId,
    RunnerOwnerType.tryFrom ownerType = .ok type → ownerIdOf s.core caller type owner = some ownerId →
      AdmitsRunner s d.id ownerId name → HoldsName s.core caller type owner
  | .refreshRunnerToken owner name => ∀ runner, s.getRunner owner name = some runner →
    AdmitsToken c s d runner owner name → Controls s.core caller runner
  | .listRunners owner cursor limit => (∃ ownerType, HoldsName s.core caller ownerType owner) ∧
    ∀ runner, OnPage Runner.cursor cursor (ListRunnersRequest.new owner cursor limit).limit
      (s.runnersOf owner) runner → Controls s.core caller runner
  | .deleteRunner owner name => ∀ runner, s.getRunner owner name = some runner →
    Idle s runner → Controls s.core caller runner

/-! ### What the services do -/

theorem getRunner_mem {s : RunnerStore} {owner name : String} {runner : Runner}
    (h : s.getRunner owner name = some runner) : runner ∈ s.runners.rows :=
  List.mem_of_find?_eq_some h

section Services

variable {c : RunnerSetup} {d : RunnerDraws} {s : RunnerStore}

/-- The row that a request to register a runner makes. -/
def newRunner (d : RunnerDraws) (request : CreateRunnerRequest) (ownerId : Uuid) : Runner :=
  ⟨d.id, request.name, ownerId, request.ownerName, request.ownerType, none, d.now⟩

theorem createRunner_ok {request : CreateRunnerRequest} {ownerId : Uuid}
    (hadmits : AdmitsRunner s d.id ownerId request.name) :
    ∃ runners, s.runners.insert? (newRunner d request ownerId) = some runners ∧
      s.createRunner d.id d.now request.name ownerId request.ownerName request.ownerType =
        (.ok (newRunner d request ownerId), { s with runners := runners }) := by
  obtain ⟨runners, hins⟩ := Table.insert?_of_get?_none (a := newRunner d request ownerId) hadmits.1
  have hany : ¬ (s.runners.rows.any fun r =>
      decide (r.ownerId = ownerId ∧ r.name = request.name)) = true := by
    rw [List.any_eq_true]
    rintro ⟨r, hr, htaken⟩
    exact hadmits.2 r hr (of_decide_eq_true htaken)
  refine ⟨runners, hins, ?_⟩
  unfold newRunner at hins ⊢
  simp only [RunnerStore.createRunner, if_neg hany, hins]

theorem createRunner_error {request : CreateRunnerRequest} {ownerId : Uuid}
    (hadmits : ¬ AdmitsRunner s d.id ownerId request.name) :
    s.createRunner d.id d.now request.name ownerId request.ownerName request.ownerType =
      (.error (.database .uniqueViolation), s) := by
  unfold RunnerStore.createRunner
  dsimp only
  split_ifs with hany
  · rfl
  · cases hins : s.runners.insert? (newRunner d request ownerId) with
    | none =>
      unfold newRunner at hins
      rw [hins]
    | some runners =>
      refine absurd ⟨Table.get?_none_of_insert? hins, fun r hr htaken => hany ?_⟩ hadmits
      exact List.any_eq_true.mpr ⟨r, hr, decide_eq_true htaken⟩

/-- What `create_token` makes of a store without the runner's tokens. -/
theorem createToken_ok {runner : Runner} {owner name : String}
    (hadmits : AdmitsToken c s d runner owner name) :
    (s.deleteTokens runner.id).createToken d.id runner.id (runnerClientId owner name)
        (c.hashString d.rawToken) .runner =
      (.ok ⟨d.id, runner.id, runnerClientId owner name, c.hashString d.rawToken, .runner⟩,
        { s.deleteTokens runner.id with
          tokens := ⟨d.id, runner.id, runnerClientId owner name, c.hashString d.rawToken, .runner⟩ ::
            (s.deleteTokens runner.id).tokens }) := by
  have hany : ¬ ((s.deleteTokens runner.id).tokens.any fun t =>
      decide (t.id = d.id ∨ t.tokenHash = c.hashString d.rawToken)) = true := by
    rw [List.any_eq_true]
    rintro ⟨t, ht, htaken⟩
    obtain ⟨ht, hne⟩ := List.mem_filter.mp ht
    obtain ⟨hid, hhash⟩ := hadmits.2 t ht (of_decide_eq_true hne)
    exact (of_decide_eq_true htaken).elim hid hhash
  unfold RunnerStore.createToken
  rw [if_neg (Nat.not_lt.mpr hadmits.1), if_neg hany]

theorem createToken_error {runner : Runner} {owner name : String}
    (hadmits : ¬ AdmitsToken c s d runner owner name) :
    ∃ e, (s.deleteTokens runner.id).createToken d.id runner.id (runnerClientId owner name)
      (c.hashString d.rawToken) .runner = (.error e, s.deleteTokens runner.id) := by
  unfold RunnerStore.createToken
  split_ifs with hlong hany
  · exact ⟨_, rfl⟩
  · exact ⟨_, rfl⟩
  · refine absurd ⟨Nat.not_lt.mp hlong, fun t ht hne => ?_⟩ hadmits
    have ht : t ∈ (s.deleteTokens runner.id).tokens := List.mem_filter.mpr ⟨ht, decide_eq_true hne⟩
    exact ⟨fun hid => hany (List.any_eq_true.mpr ⟨t, ht, decide_eq_true (.inl hid)⟩),
      fun hhash => hany (List.any_eq_true.mpr ⟨t, ht, decide_eq_true (.inr hhash)⟩)⟩

/-- A call under `?` that is answered, and what goes on from there. -/
theorem ensures_ask_bind {α : Type} {call : RunnerCall} {f : call.Resp → RunnerProg α}
    {a : call.Resp} {s' : RunnerStore} {F : α → RunnerStore → Prop}
    (hexec : (runnerCalls c).exec call s = (.ok a, s')) :
    Ensures (runnerCalls c) F (askRunner call >>= f) s ↔ Ensures (runnerCalls c) F (f a) s' := by
  unfold askRunner
  rw [ensures_bind, ensures_perform_ok hexec]

theorem ensures_runnerOwnerId {request : CreateRunnerRequest} {F : Uuid → RunnerStore → Prop} :
    Ensures (runnerCalls c) F (runnerOwnerId request) s ↔
      ∀ ownerId, ownerIdOf s.core request.userId request.ownerType request.ownerName = some ownerId →
        F ownerId s := by
  unfold runnerOwnerId ownerIdOf
  cases request.ownerType with
  | user => simp
  | organization =>
    rw [ensures_ask_bind rfl, ensures_bind, ensures_liftExcept]
    simp only [okOr_eq_ok, pure_eq, ensures_ret, Option.map_eq_some_iff]
    constructor
    · rintro h _ ⟨org, horg, rfl⟩
      exact h org horg
    · exact fun h org horg => h org.id ⟨org, horg, rfl⟩

/-- A registration succeeds with the new row, where the indexes admit it. -/
theorem ensures_createRunner {request : CreateRunnerRequest} {F : Runner → RunnerStore → Prop} :
    Ensures (runnerCalls c) F (createRunner d request) s ↔
      ∀ ownerId, ownerIdOf s.core request.userId request.ownerType request.ownerName = some ownerId →
        AdmitsRunner s d.id ownerId request.name → ∀ runners,
          s.runners.insert? (newRunner d request ownerId) = some runners →
          F (newRunner d request ownerId) { s with runners := runners } := by
  unfold createRunner
  rw [ensures_bind, ensures_runnerOwnerId]
  refine forall_congr' fun ownerId => forall_congr' fun _ => ?_
  unfold askRunner
  by_cases hadmits : AdmitsRunner s d.id ownerId request.name
  · obtain ⟨runners, hins, hexec⟩ := createRunner_ok hadmits
    have hexec : (runnerCalls c).exec (.createRunner d.id d.now request.name ownerId
      request.ownerName request.ownerType) s = _ := hexec
    rw [ensures_perform_ok hexec, hins]
    constructor
    · intro hF _ _ hsome
      cases hsome
      exact hF
    · exact fun hF => hF hadmits _ rfl
  · have hexec : (runnerCalls c).exec (.createRunner d.id d.now request.name ownerId
      request.ownerName request.ownerType) s = _ := createRunner_error hadmits
    exact ⟨fun _ h => absurd h hadmits, fun _ => ensures_perform_error hexec⟩

/-- A removal succeeds, where no task refers to the runner. -/
theorem ensures_deleteRunner {request : DeleteRunnerRequest} {F : Unit → RunnerStore → Prop} :
    Ensures (runnerCalls c) F (deleteRunner request) s ↔
      ∀ runner, s.getRunner request.ownerName request.name = some runner → Idle s runner →
        F () { s with runners := s.runners.erase runner.id } := by
  unfold deleteRunner askRunnerOrNotFound
  rw [ensures_ask_bind rfl, ensures_bind, ensures_liftExcept]
  simp only [okOr_eq_ok]
  refine forall_congr' fun runner => forall_congr' fun hget => ?_
  have hrow : s.runners.get? runner.id = some runner := Table.get?_key (getRunner_mem hget)
  have hany : (s.tasks.rows.any fun t => decide (t.runnerId = some runner.id)) = true ↔
      ¬ Idle s runner := by
    simp [Idle]
  have hexec : (runnerCalls c).exec (.deleteRunner runner.id) s = s.deleteRunner runner.id := rfl
  unfold RunnerStore.deleteRunner at hexec
  rw [hrow] at hexec
  dsimp only at hexec
  by_cases hidle : Idle s runner
  · rw [if_neg fun h => hany.mp h hidle] at hexec
    rw [ensures_perform_ok hexec]
    exact ⟨fun hF _ => hF, fun hF => hF hidle⟩
  · rw [if_pos (hany.mpr hidle)] at hexec
    exact ⟨fun _ h => absurd h hidle, fun _ => ensures_perform_error hexec⟩

/-- The store with a new token of the runner in place of its old ones. -/
def withToken (c : RunnerSetup) (s : RunnerStore) (d : RunnerDraws) (runner : Runner)
    (owner name : String) : RunnerStore :=
  { s with tokens :=
      ⟨d.id, runner.id, runnerClientId owner name, c.hashString d.rawToken, .runner⟩ ::
        (s.deleteTokens runner.id).tokens }

/-- A refresh succeeds with the token drawn, where the columns admit it. -/
theorem ensures_refreshRunnerToken {request : CreateRunnerTokenRequest}
    {F : String → RunnerStore → Prop} :
    Ensures (runnerCalls c) F (refreshRunnerToken c d request) s ↔
      ∀ runner, s.getRunner request.ownerName request.runnerName = some runner →
        AdmitsToken c s d runner request.ownerName request.runnerName →
          F d.rawToken (withToken c s d runner request.ownerName request.runnerName) := by
  unfold refreshRunnerToken
  rw [ensures_ask_bind rfl, ensures_bind, ensures_liftExcept]
  simp only [okOr_eq_ok]
  refine forall_congr' fun runner => forall_congr' fun hget => ?_
  rw [ensures_ask_bind rfl]
  have hcreate : (runnerCalls c).exec (.createToken d.id runner.id
      (runnerClientId request.ownerName request.runnerName) (c.hashString d.rawToken) .runner)
      (s.deleteTokens runner.id) = (s.deleteTokens runner.id).createToken d.id runner.id
        (runnerClientId request.ownerName request.runnerName) (c.hashString d.rawToken) .runner := rfl
  by_cases hadmits : AdmitsToken c s d runner request.ownerName request.runnerName
  · rw [createToken_ok hadmits] at hcreate
    rw [ensures_ask_bind hcreate, pure_eq, ensures_ret]
    exact ⟨fun hF _ => hF, fun hF => hF hadmits⟩
  · obtain ⟨e, herror⟩ := createToken_error hadmits
    rw [herror] at hcreate
    refine ⟨fun _ h => absurd h hadmits, fun _ => ?_⟩
    unfold askRunner
    rw [ensures_bind]
    exact ensures_perform_error hcreate

theorem ensures_listRunners {request : ListRunnersRequest} {F : Page Runner → RunnerStore → Prop} :
    Ensures (runnerCalls c) F (listRunners request) s ↔
      F ⟨(s.listRunners request.ownerName request.cursor request.limit).1,
        (s.listRunners request.ownerName request.cursor request.limit).2⟩ s := by
  unfold listRunners
  rw [ensures_ask_bind rfl, pure_eq, ensures_ret]

end Services

/-! ### Requests -/

section Requests

variable {c : RunnerSetup} {s : RunnerStore} {d : RunnerDraws} {caller : Uuid}

/-- A row that stays is not removed. -/
theorem get?_ne_none {t : Table Runner} {runner : Runner} (h : runner ∈ t.rows) :
    t.get? runner.id ≠ none := by
  rw [show t.get? runner.id = some runner from Table.get?_key h]
  exact Option.some_ne_none runner

/-- Who holds the name that a runner is registered under controls the runner. -/
theorem HoldsName.controls {request : CreateRunnerRequest} {ownerId : Uuid}
    (hid : ownerIdOf s.core request.userId request.ownerType request.ownerName = some ownerId)
    (hname : HoldsName s.core request.userId request.ownerType request.ownerName) :
    Controls s.core request.userId (newRunner d request ownerId) := by
  unfold ownerIdOf at hid
  unfold HoldsName at hname
  unfold Controls newRunner
  cases htype : request.ownerType with
  | user =>
    rw [htype] at hid
    exact (Option.some.inj hid).symm
  | organization =>
    rw [htype] at hid hname
    obtain ⟨org, horg, hmember⟩ := hname
    obtain ⟨org', horg', rfl⟩ := Option.map_eq_some_iff.mp hid
    obtain rfl := Option.some.inj (horg.symm.trans horg')
    exact hmember

theorem createRunner_entitled_iff {request : CreateRunnerRequest} {ownerId : Uuid}
    {runners : Table Runner}
    (hid : ownerIdOf s.core request.userId request.ownerType request.ownerName = some ownerId)
    (hins : s.runners.insert? (newRunner d request ownerId) = some runners) :
    Entitled c s request.userId request.ownerName (.runner (newRunner d request ownerId))
        { s with runners := runners } ↔
      HoldsName s.core request.userId request.ownerType request.ownerName := by
  constructor
  · intro h
    exact (h.made _ rfl).1
  · intro hname
    refine ⟨fun runner h => ?_, nofun, nofun, fun runner hr hgone => ?_⟩
    · obtain rfl := RunnerReply.runner.inj h
      exact ⟨hname, hname.controls hid⟩
    · exact absurd hgone (get?_ne_none ((Table.mem_insert? hins).mpr (.inr hr)))

theorem refreshRunnerToken_entitled_iff {runner : Runner} {owner name : String}
    (hget : s.getRunner owner name = some runner) (hadmits : AdmitsToken c s d runner owner name) :
    Entitled c s caller owner (.token d.rawToken) (withToken c s d runner owner name) ↔
      Controls s.core caller runner := by
  constructor
  · intro h
    refine h.opened _ rfl runner (getRunner_mem hget) ?_
    exact ⟨_, List.mem_cons_self, rfl, rfl, rfl⟩
  · intro hcontrols
    refine ⟨nofun, fun token h other hother hopens => ?_, nofun, fun other hother hgone => ?_⟩
    · obtain rfl := RunnerReply.token.inj h
      obtain ⟨t, ht, hhash, -, hprincipal⟩ := hopens
      rcases List.mem_cons.mp ht with rfl | ht
      · have hsame : s.runners.get? runner.id = some other := by
          have hprincipal : runner.id = other.id := hprincipal
          rw [hprincipal]
          exact Table.get?_key hother
        obtain rfl := Option.some.inj (hsame.symm.trans (Table.get?_key (getRunner_mem hget)))
        exact hcontrols
      · obtain ⟨ht, hne⟩ := List.mem_filter.mp ht
        exact absurd hhash (hadmits.2 t ht (of_decide_eq_true hne)).2
    · exact absurd hgone (get?_ne_none hother)

theorem deleteRunner_entitled_iff {runner : Runner} {owner name : String}
    (hget : s.getRunner owner name = some runner) :
    Entitled c s caller owner .deleted { s with runners := s.runners.erase runner.id } ↔
      Controls s.core caller runner := by
  constructor
  · intro h
    refine h.removed runner (getRunner_mem hget) ?_
    exact Table.get?_eq_none_iff.mpr fun other hother => (Table.mem_erase.mp hother).2
  · intro hcontrols
    refine ⟨nofun, nofun, nofun, fun other hother hgone => ?_⟩
    have hid : other.id = runner.id := by
      by_contra hne
      exact get?_ne_none (Table.mem_erase.mpr ⟨hother, hne⟩) hgone
    have hsame : s.runners.get? other.id = some runner := hid ▸ Table.get?_key (getRunner_mem hget)
    obtain rfl := Option.some.inj (hsame.symm.trans (Table.get?_key hother))
    exact hcontrols

theorem listRunners_entitled_iff {owner : String} {page : Page Runner} :
    Entitled c s caller owner (.page page) s ↔
      (∃ ownerType, HoldsName s.core caller ownerType owner) ∧
        ∀ runner ∈ page.data, Controls s.core caller runner := by
  constructor
  · intro h
    exact h.listed _ rfl
  · intro hlisted
    refine ⟨nofun, nofun, fun page' h => ?_, fun other hother hgone => ?_⟩
    · obtain rfl := RunnerReply.page.inj h
      exact hlisted
    · exact absurd hgone (get?_ne_none hother)

/-- **One request.** -/
theorem ownersOnly_iff (request : RunnerRequest) :
    OwnersOnly c s d caller request ↔ MayAsk c s d caller request := by
  unfold OwnersOnly
  rw [← ensures_iff (F := Entitled c s caller request.owner)]
  cases request with
  | createRunner owner name ownerType =>
    simp only [handleRunner, createRunnerHandler, pure_eq, MayAsk, RunnerRequest.owner]
    rw [ensures_bind, ensures_liftExcept]
    simp only [CreateRunnerRequest.new_ok]
    constructor
    · intro h type ownerId htype hid hadmits
      have h := h _ ⟨type, htype, rfl⟩
      rw [ensures_bind, ensures_createRunner] at h
      obtain ⟨runners, hins, -⟩ := @createRunner_ok d s ⟨name, caller, owner, type⟩ ownerId hadmits
      have hentitled := ensures_ret.mp (h ownerId hid hadmits runners hins)
      exact (createRunner_entitled_iff hid hins).mp hentitled
    · rintro h _ ⟨type, htype, rfl⟩
      rw [ensures_bind, ensures_createRunner]
      intro ownerId hid hadmits runners hins
      have hname := h type ownerId htype hid hadmits
      exact ensures_ret.mpr ((createRunner_entitled_iff hid hins).mpr hname)
  | refreshRunnerToken owner name =>
    simp only [handleRunner, refreshRunnerTokenHandler, pure_eq, MayAsk, RunnerRequest.owner]
    rw [ensures_bind, ensures_refreshRunnerToken]
    simp only [ensures_ret]
    refine forall_congr' fun runner => forall_congr' fun hget => forall_congr' fun hadmits => ?_
    exact refreshRunnerToken_entitled_iff hget hadmits
  | listRunners owner cursor limit =>
    simp only [handleRunner, listRunnersHandler, pure_eq, MayAsk, RunnerRequest.owner]
    rw [ensures_bind, ensures_listRunners, ensures_ret, listRunners_entitled_iff]
    simp only [mem_listRunners]
    exact Iff.rfl
  | deleteRunner owner name =>
    simp only [handleRunner, deleteRunnerHandler, pure_eq, MayAsk, RunnerRequest.owner]
    rw [ensures_bind, ensures_deleteRunner]
    simp only [ensures_ret]
    refine forall_congr' fun runner => forall_congr' fun hget => forall_congr' fun _ => ?_
    exact deleteRunner_entitled_iff hget

end Requests

/-! ### Runs -/

/-- A step of a run: a request is served to its end, whichever of its calls the
plan fails, or something else happens. -/
inductive RunnerStep where
  | serve (op : RunnerOp) (plan : List Bool)
  | event (e : CiEvent)

def runnerStep (c : RunnerSetup) : RunnerStep → RunnerStore → RunnerStore
  | .serve op plan, s => ((runnerProgram c op).run (runnerCalls c) plan s).2
  | .event e, s => afterEvent c e s

/-- The stores that are reached. -/
def Stored (c : RunnerSetup) : RunnerStore → Prop :=
  Reach (· = emptyRunners) (runnerStep c) fun _ _ => True

/-- If a step is a request on runners, it meets `φ`. -/
def OnRequests (φ : RunnerStore → RunnerDraws → Uuid → RunnerRequest → Prop) (s : RunnerStore) :
    RunnerStep → Prop
  | .serve (.request d caller request) _ => φ s d caller request
  | _ => True

/-- **Who controls a runner.** In every store that is reached, a request on
runners gives its caller no more than the caller is entitled to just if the
caller may ask it; and so in a run all requests do just if all may be asked. -/
theorem owner_controls_runner (c : RunnerSetup) :
    (∀ s, Stored c s → ∀ d caller request,
      OwnersOnly c s d caller request ↔ MayAsk c s d caller request) ∧
    ∀ steps, Guarded (runnerStep c) (OnRequests (OwnersOnly c)) steps emptyRunners ↔
      Guarded (runnerStep c) (OnRequests (MayAsk c)) steps emptyRunners := by
  refine ⟨fun s _ d caller request => ownersOnly_iff request, fun steps => ?_⟩
  refine guarded_congr fun s step => ?_
  unfold OnRequests
  split
  · exact ownersOnly_iff _
  · exact Iff.rfl

/-! ### A stranger's token -/

/-- No commits; every name is allowed, and a token is stored with a mark for its
hash. -/
def runnerSetup : RunnerSetup where
  core := ⟨Git.ofHistory [⟨[], 0, 0⟩] (by decide), fun _ => true, fun _ => false⟩
  hashString token := "#" ++ token
  createdAt id := id.val

/-- The users 1 and 2 sign up and become `alice` and `bob`; `alice` registers the
runner `alice/box`. -/
def boxStore : RunnerStore :=
  play (runnerStep runnerSetup)
    [.event (.core (.createUser 1 7)), .event (.core (.updateCurrentUser 1 "alice")),
      .event (.core (.createUser 2 8)), .event (.core (.updateCurrentUser 2 "bob")),
      .serve (.request ⟨3, "", 5⟩ 1 (.createRunner "alice" "box" "user")) []] emptyRunners

/-- The row of `alice/box`. -/
def boxRunner : Runner := ⟨3, "box", 1, "alice", .user, none, 5⟩

example : ((handleRunner runnerSetup ⟨4, "t", 6⟩ 2 (.refreshRunnerToken "alice" "box")).run
    (runnerCalls runnerSetup) [] boxStore).1 = .ok (.token "t") := by decide +kernel

/-- A token of `alice/box` for `bob`. -/
theorem not_owners_only_boxStore :
    ¬ ∀ s, Stored runnerSetup s → ∀ d caller request, OwnersOnly runnerSetup s d caller request := by
  intro h
  have hstored : Stored runnerSetup boxStore := reach_play (.start rfl) guarded_true
  have hask := (ownersOnly_iff _).mp
    (h boxStore hstored ⟨4, "t", 6⟩ 2 (.refreshRunnerToken "alice" "box"))
  have hget : boxStore.getRunner "alice" "box" = some boxRunner := by decide +kernel
  have htokens : boxStore.tokens = [] := by decide +kernel
  have hadmits : AdmitsToken runnerSetup boxStore ⟨4, "t", 6⟩ boxRunner "alice" "box" := by
    refine ⟨by decide, fun t ht => ?_⟩
    rw [htokens] at ht
    cases ht
  have hcontrols : boxRunner.ownerId = 2 := hask boxRunner hget hadmits
  exact absurd hcontrols (by decide)

end Ci
end Gitdot
