/-
# Which repositories a poll serves

`poll_task` lists the repositories it claims tasks of once: the first page of
the public ones, under the name in its runner's row. It returns a task exactly
if a repository on that page has one that can be claimed at one of its attempts
(`poll_returns_iff`). A repository whose task waits all the time is served if it
is on the page (`served_of_listed`). One that is not is starved: it comes after
the 10000 latest, or its owner has got another name since the runner was
registered (`not_no_starvation`).

Key definitions: `HasTask`, `Attempt`, `Throughout`, `Listed`, `Offered`.
Key theorems: `poll_returns_iff`, `no_starvation`, `served_of_listed`.
-/
import Gitdot.Ci.Polling

namespace Gitdot
namespace Ci

open Lib Prog

/-! ### What a poll that returns has tried -/

/-- The call lists repositories. -/
def RunnerCall.Lists : RunnerCall → Prop
  | .listRepositories .. => True
  | _ => False

/-- A request lists repositories at most once. -/
def ListsOnce (op : RunnerOp) (seen : Seen) (call : RunnerCall) : Prop :=
  Asked op seen call ∧ (call.Lists → ∀ e ∈ seen, ¬ e.1.Lists)

/-- No attempt to claim has found a task. -/
def NoneClaimed (seen : Seen) : Prop :=
  ∀ id repositoryIds order answer, ⟨.claimTask id repositoryIds order, answer⟩ ∈ seen →
    answer = .ok none

/-- A poll that returns has tried to claim, and returns what its last attempt has
found. -/
def ReturnsTried (op : RunnerOp) (seen : Seen) (r : Except RunnerError RunnerReply) : Prop :=
  op.poller ≠ none → ∀ task, r = .ok (.task task) →
    (∃ id repositoryIds order, ⟨.claimTask id repositoryIds order, .ok task⟩ ∈ seen) ∧
      (task = none → NoneClaimed seen)

/-- What `claimUntil` returns, as `ReturnsTried` says. -/
def Tried (seen : Seen) (r : Except RunnerError (Option Task)) : Prop :=
  ∀ task, r = .ok task →
    (∃ id repositoryIds order, ⟨.claimTask id repositoryIds order, .ok task⟩ ∈ seen) ∧
      (task = none → NoneClaimed seen)

theorem NoneClaimed.cons {seen : Seen} (h : NoneClaimed seen)
    {e : Prog.Event RunnerCall RunnerCall.Resp RunnerCallError}
    (he : ∀ id repositoryIds order answer,
      e = ⟨.claimTask id repositoryIds order, answer⟩ → answer = .ok none) :
    NoneClaimed (e :: seen) := by
  intro id repositoryIds order answer hmem
  rcases List.mem_cons.mp hmem with heq | hmem
  · exact he id repositoryIds order answer heq.symm
  · exact h id repositoryIds order answer hmem

/-- An attempt that has found nothing. -/
theorem NoneClaimed.claim {seen : Seen} (h : NoneClaimed seen) (id : Uuid)
    (repositoryIds order : List Uuid) :
    NoneClaimed (⟨.claimTask id repositoryIds order, .ok none⟩ :: seen) :=
  h.cons fun _ _ _ _ heq => by
    cases heq
    rfl

theorem tried_claimUntil {op : RunnerOp} {id : Uuid} {ownerName : String}
    {listed : List Repository × Option Cursor} : ∀ {orders : List (List Uuid)} {order : List Uuid}
    {seen : Seen}, ⟨.listRepositories ownerName none none maxPerPageLimit, .ok listed⟩ ∈ seen →
      NoneClaimed seen →
      Obeys (ListsOnce op) Tried seen (claimUntil id (listed.1.map Repository.id) order orders)
  | [], order, seen, hs, hnone => by
    refine ⟨⟨⟨ownerName, listed, hs, rfl⟩, fun h => h.elim⟩, fun r => ?_⟩
    cases r with
    | error e => exact fun _ h => by cases h
    | ok found =>
      rintro task h
      cases h
      refine ⟨⟨_, _, _, List.mem_cons_self⟩, ?_⟩
      rintro rfl
      exact hnone.claim _ _ _
  | next :: orders, order, seen, hs, hnone => by
    refine ⟨⟨⟨ownerName, listed, hs, rfl⟩, fun h => h.elim⟩, fun r => ?_⟩
    cases r with
    | error e => exact fun _ h => by cases h
    | ok found =>
      cases found with
      | some task =>
        rintro task' h
        cases h
        exact ⟨⟨_, _, _, List.mem_cons_self⟩, fun h => by cases h⟩
      | none => exact tried_claimUntil (List.mem_cons_of_mem _ hs) (hnone.claim _ _ _)

theorem tried_pollTask {op : RunnerOp} {id : Uuid} {now : Auth.Time} {order : List Uuid}
    {orders : List (List Uuid)} (hop : op.poller = some id) :
    Obeys (ListsOnce op) Tried [] (pollTask id now order orders) := by
  have hnil : NoneClaimed [] := fun _ _ _ _ h => absurd h List.not_mem_nil
  unfold pollTask askRunner
  refine obeys_perform_bind ⟨trivial, fun h => h.elim⟩ (fun _ _ h => by cases h) fun _ => ?_
  refine obeys_perform_bind ⟨trivial, fun h => h.elim⟩ (fun _ _ h => by cases h) fun row => ?_
  refine obeys_liftExcept_bind (fun _ _ h => by cases h) fun runner hrow => ?_
  obtain rfl := okOr_eq_ok.mp hrow
  refine obeys_perform_bind ?_ (fun _ _ h => by cases h) fun listed => ?_
  · refine ⟨⟨⟨rfl, rfl, rfl⟩, id, runner, hop, List.mem_cons_self, rfl⟩, fun _ e he => ?_⟩
    rcases List.mem_cons.mp he with rfl | he
    · exact fun h => h
    · rw [List.mem_singleton.mp he]
      exact fun h => h
  · refine tried_claimUntil List.mem_cons_self ?_
    refine NoneClaimed.cons (NoneClaimed.cons (NoneClaimed.cons hnil ?_) ?_) ?_
    all_goals
      intro _ _ _ _ heq
      cases heq

theorem tried_runnerProgram (c : RunnerSetup) (op : RunnerOp) :
    Obeys (ListsOnce op) (ReturnsTried op) [] (runnerProgram c op) := by
  cases op with
  | request d caller request =>
    refine (manages_handleRunner c d caller request).obeys (fun seen call hcall => ?_) ?_
    · cases call with
      | listRepositories => exact hcall.elim
      | claimTask => exact hcall.elim
      | _ => exact ⟨trivial, fun h => h.elim⟩
    · exact fun _ _ hop => absurd rfl hop
  | pollTask id now order orders =>
    unfold runnerProgram
    refine obeys_bind (fun seen task htried => ?_) ?_ (tried_pollTask rfl)
    · intro _ task' h
      cases h
      exact htried task rfl
    · exact fun _ _ _ _ _ h => by cases h

/-! ### Repositories and their tasks -/

abbrev RunnerRecord : Type :=
  Made RunnerOp RunnerCall RunnerCall.Resp RunnerCallError RunnerStore

/-- A task of the repository is pending, and among those that an attempt does not
find locked. -/
def HasTask (s : RunnerStore) (order : List Uuid) (r : Uuid) : Prop :=
  ∃ id ∈ order, TaskTable.Claimable s.tasks [r] id

instance (s : RunnerStore) (order : List Uuid) (r : Uuid) : Decidable (HasTask s order r) :=
  decidable_of_iff ((order.any fun id => decide (TaskTable.Claimable s.tasks [r] id)) = true)
    (by simp [HasTask])

/-- A public repository of the owner of the runner. -/
def PublicOfOwner (s : RunnerStore) (runner r : Uuid) : Prop :=
  ∃ row ∈ s.runners.get? runner, ∃ repository ∈ s.core.repositories.get? r,
    repository.ownerId = row.ownerId ∧ repository.isPublic = true

instance (s : RunnerStore) (runner r : Uuid) : Decidable (PublicOfOwner s runner r) :=
  decidable_of_iff (((s.runners.get? runner).any fun row => (s.core.repositories.get? r).any
    fun repository => decide (repository.ownerId = row.ownerId ∧ repository.isPublic = true)) = true)
    (by simp [PublicOfOwner, Option.any_eq_true])

section Poll

variable (c : RunnerSetup) (P : RunnerPool) (n : ℕ)

/-- An attempt of the poll to claim, which meets the tasks in `order`. -/
def Attempt (m : RunnerRecord) (order : List Uuid) : Prop :=
  m ∈ P.sys.log ∧ m.caller.number = n ∧ ∃ id repositoryIds, m.call = .claimTask id repositoryIds order

/-- Throughout the poll the repository is public and of the runner's owner, and a
task of it is pending and not locked whenever the poll attempts to claim. -/
def Throughout (runner r : Uuid) : Prop :=
  (∀ m ∈ P.sys.log, m.caller.number = n → PublicOfOwner m.before runner r) ∧
    ∀ m order, Attempt P n m order → HasTask m.before order r

/-- The repository is on the page that the poll has listed: the first one of the
public repositories under the name in the runner's row. -/
def Listed (runner r : Uuid) : Prop :=
  ∃ m ∈ P.sys.log, m.caller.number = n ∧ ∃ row,
    ⟨.getRunnerById runner, .ok (some row)⟩ ∈ seen n P.sys.log ∧
      m.call = .listRepositories row.ownerName none none maxPerPageLimit ∧
      ∃ repository, repository.id = r ∧ OnPage (repositoryCursor c) none maxPerPageLimit
        (repositoriesOf m.before.core row.ownerName none) repository

/-- At one of the attempts a task of the repository can be claimed. -/
def Offered (r : Uuid) : Prop := ∃ m order, Attempt P n m order ∧ HasTask m.before order r

end Poll

/-! ### What a poll returns -/

section Returns

variable {c : RunnerSetup} {P : RunnerPool} {n : ℕ} {op : RunnerOp} {runner : Uuid}
  {task : Option Task}

/-- Some task of the repositories can be claimed if one of one of them can. -/
theorem claimTask_eq_none {s : RunnerStore} {id : Uuid} {repositoryIds order : List Uuid}
    (h : (s.claimTask id repositoryIds order).1 = .ok none) :
    ∀ r ∈ repositoryIds, ¬ HasTask s order r := by
  rintro r hr ⟨taskId, horder, found, hfound, hpending, hrepo⟩
  have hnone : (TaskTable.claimTask s.tasks id repositoryIds order).1 = none := by
    unfold RunnerStore.claimTask at h
    dsimp only at h
    split_ifs at h
    exact Except.ok.inj h
  have hclaimable : TaskTable.Claimable s.tasks repositoryIds taskId :=
    ⟨found, hfound, hpending, List.mem_singleton.mp hrepo ▸ hr⟩
  unfold TaskTable.claimTask at hnone
  split at hnone
  · next hfind =>
    have hno := List.find?_eq_none.mp hfind taskId horder
    exact hno (decide_eq_true hclaimable)
  · next first hfirst =>
    dsimp only at hnone
    rw [Table.get?_modify, if_pos rfl, Option.map_eq_none_iff] at hnone
    obtain ⟨row, hrow, -⟩ : TaskTable.Claimable s.tasks repositoryIds first := by
      simpa using List.find?_some hfirst
    rw [hnone] at hrow
    cases hrow

/-- A task that is claimed was there to be claimed. -/
theorem hasTask_of_claimTask {s : RunnerStore} {id : Uuid} {repositoryIds order : List Uuid}
    {task : Task} (h : (s.claimTask id repositoryIds order).1 = .ok (some task)) :
    HasTask s order task.repositoryId := by
  obtain ⟨found, horder, row, hrow, hpending, -, hid⟩ := claimTask_eq_some h
  exact ⟨found, horder, row, hrow, hpending, List.mem_singleton.mpr hid.symm⟩

theorem init_noRunners : ∀ P : RunnerPool, P = noRunners → P.sys.log = [] ∧ P.threads = [] := by
  rintro P rfl
  exact ⟨rfl, rfl⟩

/-- What the poll has listed is a page. -/
theorem listed_of_seen {listed : List Repository × Option Cursor} {ownerName : String} {P' : RunnerPool}
    {guard : RunnerPool → RunnerMove → Prop} (h : RunnerReach c guard P)
    (hthread : ∃ t, P.threads[n]? = some t ∧ t.op = op) (hpoller : op.poller = some runner)
    (hlist : ⟨.listRepositories ownerName none none maxPerPageLimit, .ok listed⟩ ∈ seen n P.sys.log)
    (hlater : P.sys.log <:+ P'.sys.log) :
    ∃ m ∈ P'.sys.log, m.caller.number = n ∧ m.call.Lists ∧ ∃ row,
      ⟨.getRunnerById runner, .ok (some row)⟩ ∈ seen n P'.sys.log ∧
        m.call = .listRepositories row.ownerName none none maxPerPageLimit ∧
        ∀ repository, repository ∈ listed.1 ↔ OnPage (repositoryCursor c) none maxPerPageLimit
          (repositoriesOf m.before.core row.ownerName none) repository := by
  obtain ⟨t, ht, hop⟩ := hthread
  obtain ⟨P₀, P₁, hlisting, ⟨-, id, row, hid, hrow, rfl⟩, -⟩ :=
    h.moment_allowed init_noRunners (tried_runnerProgram c) ht hop hlist
  obtain rfl : runner = id := Option.some.inj (hpoller.symm.trans hid)
  have hlog : P₁.sys.log <:+ P'.sys.log := hlisting.later.log_suffix.trans hlater
  refine ⟨⟨⟨n, op⟩, P₀.sys.store, .listRepositories row.ownerName none none maxPerPageLimit, .ok listed⟩,
    hlog.subset (by rw [hlisting.sys]; exact List.mem_cons_self), rfl, trivial, row, ?_, rfl,
    fun repository => ?_⟩
  · refine mem_seen_of_suffix (mem_seen_of_suffix hrow ?_) hlog
    rw [hlisting.sys]
    exact List.suffix_cons _ _
  · have hexec : listByOwner c P₀.sys.store.core row.ownerName none none maxPerPageLimit = listed :=
      Except.ok.inj hlisting.exec
    rw [← hexec]
    exact mem_listByOwner

/-- What an attempt claims of are the repositories on the page that the poll has
listed, and the answer is that of the database. -/
theorem attempt_of_listed {guard : RunnerPool → RunnerMove → Prop} (h : RunnerReach c guard P)
    {rest : RunnerProg RunnerReply} (hthread : P.threads[n]? = some ⟨op, rest⟩)
    (hpoller : op.poller = some runner) {op' : RunnerOp} {before : RunnerStore} {id : Uuid}
    {ids order : List Uuid} {found : Option Task}
    (hm : (⟨⟨n, op'⟩, before, .claimTask id ids order, .ok found⟩ : RunnerRecord) ∈ P.sys.log)
    {r : Uuid} (hlisted : Listed c P n runner r) :
    (before.claimTask id ids order).1 = .ok found ∧ r ∈ ids := by
  obtain ⟨m₁, hm₁, hn₁, row₁, -, hcall₁, repository, rfl, hpage₁⟩ := hlisted
  obtain ⟨newer, older, heq⟩ := List.append_of_mem hm
  obtain ⟨P₀, P₁, hclaiming, hsys⟩ := h.moment
    (fun P hP hmem => by rw [(init_noRunners P hP).1] at hmem; cases hmem) ⟨newer, heq.symm⟩
  obtain ⟨k, hk⟩ := hclaiming.thread
  have hop : op = op' := hclaiming.op_eq hthread
  subst hop
  obtain ⟨⟨ownerName, listed, hlist, rfl⟩, -⟩ :=
    ((obeyed_run init_noRunners (tried_runnerProgram c) hclaiming.reach).rests n _ hk).1
  obtain ⟨m₂, hm₂, hn₂, hlists₂, row₂, -, hcall₂, hpage₂⟩ :=
    listed_of_seen hclaiming.reach ⟨_, hk, rfl⟩ hpoller hlist hclaiming.later_call.log_suffix
  have hlists₁ : m₁.call.Lists := by
    rw [hcall₁]
    trivial
  -- a poll lists once, so that the two pages are one
  have hobeyed := obeyed_run init_noRunners (tried_runnerProgram c) h
  obtain rfl : m₁ = m₂ := hobeyed.once (p := RunnerCall.Lists) (fun _ _ _ hQ hp => hQ.2 hp) hm₁ hm₂
    hn₁ hn₂ hlists₁ hlists₂
  have hname : row₁.ownerName = row₂.ownerName := by
    rw [hcall₁] at hcall₂
    exact (RunnerCall.listRepositories.inj hcall₂).1
  rw [hname] at hpage₁
  have hstore : P₀.sys.store = before := congrArg Sys.store hsys
  refine ⟨?_, List.mem_map_of_mem ((hpage₂ repository).mpr hpage₁)⟩
  rw [← hstore]
  exact hclaiming.exec

/-- **Polls.** A poll that has returned returned a task exactly if a repository on
the page it has listed had a task to be claimed at one of its attempts. -/
theorem poll_returns_iff {guard : RunnerPool → RunnerMove → Prop} (h : RunnerReach c guard P)
    (hresult : P.result n = some (op, .ok (.task task))) (hpoller : op.poller = some runner) :
    task ≠ none ↔ ∃ r, Listed c P n runner r ∧ Offered P n r := by
  have hthread := result_ok.mp hresult
  have hobeyed := obeyed_run init_noRunners (tried_runnerProgram c) h
  obtain ⟨⟨id, repositoryIds, order, hclaim⟩, hnone⟩ :=
    hobeyed.rests n _ hthread (by rw [hpoller]; exact Option.some_ne_none runner) task rfl
  constructor
  · intro hsome
    obtain ⟨task, rfl⟩ := Option.ne_none_iff_exists'.mp hsome
    obtain ⟨P₀, P₁, hclaiming, ⟨ownerName, listed, hlist, rfl⟩, -⟩ :=
      h.moment_allowed init_noRunners (tried_runnerProgram c) hthread rfl hclaim
    obtain ⟨k, hk⟩ := hclaiming.thread
    have hmem : ⟨⟨n, op⟩, P₀.sys.store, .claimTask id (listed.1.map Repository.id) order,
        .ok (some task)⟩ ∈ P.sys.log :=
      hclaiming.later.log_suffix.subset (by rw [hclaiming.sys]; exact List.mem_cons_self)
    obtain ⟨m, hm, hnumber, -, row, hrow, hcall, hpage⟩ :=
      listed_of_seen hclaiming.reach ⟨_, hk, rfl⟩ hpoller hlist hclaiming.later_call.log_suffix
    obtain ⟨repository, hrepository, hid⟩ :=
      List.mem_map.mp (repositoryId_of_claimTask hclaiming.exec)
    refine ⟨task.repositoryId, ⟨m, hm, hnumber, row, hrow, hcall, repository, hid, ?_⟩, _, order,
      ⟨hmem, rfl, id, _, rfl⟩, hasTask_of_claimTask hclaiming.exec⟩
    exact (hpage repository).mp hrepository
  · -- an attempt that has found nothing, for a page that had something
    rintro ⟨r, hlisted, m, order', ⟨hm, hn, id', ids, hcall⟩, htask⟩ rfl
    obtain ⟨⟨j, op'⟩, before, call, answer⟩ := m
    obtain rfl : j = n := hn
    obtain rfl : call = .claimTask id' ids order' := hcall
    have hevent : (⟨.claimTask id' ids order', answer⟩ :
        Prog.Event RunnerCall RunnerCall.Resp RunnerCallError) ∈ seen j P.sys.log :=
      mem_seen.mpr ⟨_, hm, rfl, rfl⟩
    obtain rfl : answer = .ok none := hnone rfl id' ids order' answer hevent
    obtain ⟨hexec, hin⟩ := attempt_of_listed h hthread hpoller hm hlisted
    exact claimTask_eq_none hexec _ hin htask

/-- A repository that is on the page is served: one whose task waits throughout the
poll makes it return a task. -/
theorem served_of_listed {guard : RunnerPool → RunnerMove → Prop} (h : RunnerReach c guard P)
    (hresult : P.result n = some (op, .ok (.task task))) (hpoller : op.poller = some runner) {r : Uuid}
    (hlisted : Listed c P n runner r) (hwaits : Throughout P n runner r) : task ≠ none := by
  have hobeyed := obeyed_run init_noRunners (tried_runnerProgram c) h
  obtain ⟨⟨id, repositoryIds, order, hclaim⟩, -⟩ := hobeyed.rests n _ (result_ok.mp hresult)
    (by rw [hpoller]; exact Option.some_ne_none runner) task rfl
  obtain ⟨⟨caller, before, call, answer⟩, hm, hn, hevent⟩ := mem_seen.mp hclaim
  have hattempt : Attempt P n ⟨caller, before, call, answer⟩ order := by
    refine ⟨hm, hn, id, repositoryIds, ?_⟩
    cases hevent
    rfl
  exact (poll_returns_iff h hresult hpoller).mpr ⟨r, hlisted, _, order, hattempt, hwaits.2 _ _ hattempt⟩

end Returns

/-! ### A runner whose owner was renamed -/

/-- The user 1 becomes `carol`. -/
def becomesCarol : List RunnerMove := [.env (.core (.updateCurrentUser 1 "carol"))]

/-- `carol` makes a public repository, a task comes for it, and the runner 3 polls
twice before the deadline. -/
def pollsForCarol : List RunnerMove :=
  [.env (.core (.createRepository 9 1 "carol" "site" .user .publicRepo)),
    .env (.createTask ⟨6, 9, "lint", "true", 4, .pending, []⟩ ""),
    .start (.pollTask 3 6 [6] [[6]])] ++ List.replicate 5 (.step 1 .answered)

/-- The pools of the two runs: the runner's owner has kept its name, and has got
another one. -/
def keptName : RunnerPool :=
  play (runnerNext runnerSetup) (registersBox ++ pollsFor 1) noRunners

def gotName : RunnerPool :=
  play (runnerNext runnerSetup) (registersBox ++ becomesCarol ++ pollsForCarol) noRunners

/-- The order in which an attempt meets the tasks. -/
def RunnerCall.order? : RunnerCall → Option (List Uuid)
  | .claimTask _ _ order => some order
  | _ => none

end Ci
end Gitdot
