/-
# Whom a runner serves

`poll_task` lists repositories by the owner's name in the runner's row, a copy
that was taken when the runner was registered and that nothing compares with
the name its owner has. The repositories it gets are those of whoever has that
name when they are listed; the runner's owner may have another name by then,
or never have had this one.

`RunnersServeOwners` says that a poll which has returned a task returned one
of a repository of its runner's owner. That is so in every run in which the
repositories listed for a poll are each the owner's (`ListsOwn`): the runner's
row and the repositories' owners stay as they are (`lasting_exec`,
`lasting_event`), however the calls of the poll interleave with everything
else.

Key definitions: `NoneDeleted`, `ListsOwn`, `RunnersServeOwners`, `Lasting`,
`Asked`, `ReturnsClaimed`, `NamesOwn`.
Key theorems: `lasts_serve`, `lasting_later`, `obeys_runnerProgram`,
`runners_serve_owners`.
-/
import Gitdot.Ci.RunnerAccess
import Gitdot.Server.Writers

namespace Gitdot
namespace Ci

open Lib Prog

/-! ### Repositories last -/

section Repositories

variable {w : World} {c : Setup} {g : Git}

/-- The repositories that a request leaves, each under the owner it had. -/
abbrev RepositoriesLast (w w' : World) : Prop :=
  Table.Lasts Repository.ownerId w.repositories w'.repositories

theorem repositoriesLast_of_eq {w' : World} (h : w'.repositories = w.repositories) :
    RepositoriesLast w w' := by
  unfold RepositoriesLast
  rw [h]
  exact .refl _ _

theorem lasts_setReviews (w : World) (id : Uuid) (reviews : Table Review) :
    Table.Lasts Repository.ownerId w.repositories (w.setReviews id reviews) :=
  Table.lasts_modify _ fun _ => rfl

theorem lasts_runAt {draw : Uuid} {plan : List Bool} {owner repo : String}
    {repository : Option Repository} {p : ReviewProg Review} :
    RepositoriesLast w (w.runAt g draw plan owner repo repository p).2 := by
  cases repository with
  | none => exact repositoriesLast_of_eq rfl
  | some r => exact lasts_setReviews w r.id _

theorem lasts_authored {plan : List Bool} {caller : Uuid} {owner repo : String} {number : ℤ}
    {p : ReviewProg Review} :
    RepositoriesLast w (w.authored g plan caller owner repo number p).2 := by
  unfold World.authored
  cases w.verifyAuthorizedForReview ⟨caller, owner, repo, number⟩ with
  | error e => exact repositoriesLast_of_eq rfl
  | ok _ => exact lasts_runAt

theorem lasts_gitReceivePack {draw : Uuid} {plan : List Bool} {request : ProcessReviewRequest} :
    RepositoriesLast w (w.gitReceivePack g draw plan request).2 := by
  unfold World.gitReceivePack
  split
  · exact repositoriesLast_of_eq rfl
  · unfold World.processReview
    split
    · exact lasts_runAt
    · exact lasts_authored

theorem lasts_setReviewers {owner repo : String} {number : ℤ} {id : Uuid}
    {f : List Uuid → List Uuid} : RepositoriesLast w (w.setReviewers owner repo number id f) := by
  unfold World.setReviewers
  cases w.repositoryWith owner repo number with
  | none => exact repositoriesLast_of_eq rfl
  | some r => exact lasts_setReviews w r.id _

theorem lasts_addReviewReviewerHandler {caller : Uuid} {owner repo : String} {number : ℤ}
    {userName : String} :
    RepositoriesLast w (w.addReviewReviewerHandler caller owner repo number userName).2 := by
  unfold World.addReviewReviewerHandler
  split
  · exact repositoriesLast_of_eq rfl
  split
  · exact repositoriesLast_of_eq rfl
  split
  · exact repositoriesLast_of_eq rfl
  split_ifs
  · exact repositoriesLast_of_eq rfl
  · exact repositoriesLast_of_eq rfl
  · exact lasts_setReviewers

theorem lasts_removeReviewReviewerHandler {caller : Uuid} {owner repo : String} {number : ℤ}
    {reviewerName : String} :
    RepositoriesLast w (w.removeReviewReviewerHandler caller owner repo number reviewerName).2 := by
  unfold World.removeReviewReviewerHandler
  split
  · exact repositoriesLast_of_eq rfl
  split
  · exact repositoriesLast_of_eq rfl
  split
  · exact repositoriesLast_of_eq rfl
  split_ifs
  · exact lasts_setReviewers
  · exact repositoriesLast_of_eq rfl

theorem lasts_guarded {α : Type} {draw : ℕ → Uuid} {plan : List Bool}
    {authorized : Except AuthorizationError Unit} {p : CommentProg α} :
    RepositoriesLast w (w.guarded draw plan authorized p).2 := by
  unfold World.guarded
  cases authorized with
  | error e => exact repositoriesLast_of_eq rfl
  | ok _ =>
    refine repositoriesLast_of_eq ?_
    refine run_keeps (P := fun w' : World => w'.repositories = w.repositories) ?_ rfl
    intro call w' hw'
    obtain ⟨comments, verdicts, h⟩ := @execComment_keeps draw call w'
    show (World.execComment draw call w').2.repositories = _
    rw [h]
    exact hw'

theorem lasts_insertRepository {id ownerId : Uuid} {name : String} {ownerType : RepositoryOwnerType}
    {visibility : RepositoryVisibility} {readonly : Bool} {repositories : Table Repository}
    (h : w.insertRepository id name ownerId ownerType visibility readonly = some repositories) :
    Table.Lasts Repository.ownerId w.repositories repositories := by
  unfold World.insertRepository at h
  split_ifs at h
  exact Table.lasts_insert? h

theorem lasts_createRepositoryHandler {offensive : String → Bool} {id caller : Uuid}
    {owner repo : String} {ownerType : RepositoryOwnerType} {visibility : RepositoryVisibility} :
    RepositoriesLast w
      (w.createRepositoryHandler offensive id caller owner repo ownerType visibility).2 := by
  unfold World.createRepositoryHandler
  split
  · exact repositoriesLast_of_eq rfl
  split_ifs
  · exact repositoriesLast_of_eq rfl
  · exact repositoriesLast_of_eq rfl
  dsimp only
  split
  · exact repositoriesLast_of_eq rfl
  split
  · exact repositoriesLast_of_eq rfl
  · exact lasts_insertRepository ‹_›

theorem lasts_migrateSingleRepository {id ownerId : Uuid} {ownerName repoName : String}
    {ownerType : RepositoryOwnerType} {visibility : RepositoryVisibility} {readonly : Bool}
    {mirrored : Refs} :
    RepositoriesLast w (w.migrateSingleRepository id ownerName ownerId ownerType repoName visibility
      readonly mirrored).2 := by
  unfold World.migrateSingleRepository
  split_ifs
  · exact repositoriesLast_of_eq rfl
  · exact repositoriesLast_of_eq rfl
  split
  · exact repositoriesLast_of_eq rfl
  · exact lasts_insertRepository ‹_›

theorem lasts_updateRepositoryHandler {caller : Uuid} {owner repo : String} {readonly : Option Bool} :
    RepositoriesLast w (w.updateRepositoryHandler caller owner repo readonly).2 := by
  unfold World.updateRepositoryHandler
  split
  · exact repositoriesLast_of_eq rfl
  split_ifs
  · exact repositoriesLast_of_eq rfl
  split
  · exact repositoriesLast_of_eq rfl
  · refine Table.lasts_modify ?_ ?_
    · exact fun _ => rfl
    · exact fun _ => rfl

/-- The request deletes a repository. -/
def DeletesRepository : Request → Prop
  | .deleteRepository _ _ _ => True
  | _ => False

/-- **One request.** A repository stays, under its owner, until it is deleted. -/
theorem lasts_serve (e : Request) (he : ¬ DeletesRepository e) :
    RepositoriesLast w (serve c e w) := by
  cases e with
  | deleteRepository caller owner repo => exact absurd trivial he
  | createUser id bytes =>
    refine repositoriesLast_of_eq ?_
    change (w.createUser id bytes).2.repositories = w.repositories
    unfold World.createUser
    split_ifs
    · rfl
    · split <;> rfl
  | updateCurrentUser caller name =>
    refine repositoriesLast_of_eq ?_
    change (w.updateCurrentUser c.validName caller name).2.repositories = w.repositories
    unfold World.updateCurrentUser
    split_ifs
    · rfl
    · split <;> rfl
    · rfl
  | createOrganization id caller orgName =>
    refine repositoriesLast_of_eq ?_
    change (w.createOrganization c.validName id caller orgName).2.repositories = w.repositories
    unfold World.createOrganization
    split_ifs
    · rfl
    · rfl
    · split <;> rfl
    · rfl
  | addMember caller orgName userName role =>
    refine repositoriesLast_of_eq ?_
    change (w.addMemberHandler caller orgName userName role).2.repositories = w.repositories
    unfold World.addMemberHandler
    split
    · rfl
    split
    · rfl
    · rfl
    · split_ifs <;> rfl
  | createRepository id caller owner repo ownerType visibility => exact lasts_createRepositoryHandler
  | migrateRepository id ownerName ownerId ownerType repoName visibility readonly mirrored =>
    exact lasts_migrateSingleRepository
  | updateRepository caller owner repo readonly => exact lasts_updateRepositoryHandler
  | receivePack draw plan request => exact lasts_gitReceivePack
  | publishReview plan caller request => exact lasts_authored
  | publishReviewDiff plan caller request => exact lasts_authored
  | updateReview plan caller request => exact lasts_authored
  | updateReviewDiff plan caller request => exact lasts_authored
  | mergeReviewDiff plan caller request => exact lasts_authored
  | addReviewer caller owner repo number userName => exact lasts_addReviewReviewerHandler
  | removeReviewer caller owner repo number reviewerName => exact lasts_removeReviewReviewerHandler
  | reply draw plan request => exact lasts_guarded
  | updateComment draw plan request => exact lasts_guarded
  | resolveComment draw plan request => exact lasts_guarded
  | reviewDiff draw plan request => exact lasts_guarded
  | disk disk => exact repositoriesLast_of_eq rfl

end Repositories

/-! ### Runners last -/

/-- The runner under the owner and the name it is registered with. -/
def registration (r : Runner) : Uuid × String := (r.ownerId, r.ownerName)

/-- What a store leaves to a later one: its runners and its repositories, each
with its owner. -/
structure Lasting (s s' : RunnerStore) : Prop where
  runners : Table.Lasts registration s.runners s'.runners
  repositories : RepositoriesLast s.core s'.core

theorem Lasting.refl (s : RunnerStore) : Lasting s s := ⟨.refl _ _, .refl _ _⟩

theorem Lasting.trans {s t u : RunnerStore} (h : Lasting s t) (h' : Lasting t u) : Lasting s u :=
  ⟨h.runners.trans h'.runners, h.repositories.trans h'.repositories⟩

theorem lasting_of_eq {s s' : RunnerStore} (hr : s'.runners = s.runners) (hc : s'.core = s.core) :
    Lasting s s' := by
  constructor
  · rw [hr]
    exact .refl _ _
  · rw [hc]
    exact .refl _ _

/-- The call deletes a runner. -/
def RunnerCall.Deletes : RunnerCall → Prop
  | .deleteRunner _ => True
  | _ => False

/-- **One call.** -/
theorem lasting_exec {c : RunnerSetup} (call : RunnerCall) (s : RunnerStore)
    (hcall : ¬ call.Deletes) : Lasting s ((runnerCalls c).exec call s).2 := by
  cases call with
  | deleteRunner id => exact absurd trivial hcall
  | createRunner id now name ownerId ownerName ownerType =>
    show Lasting s (s.createRunner id now name ownerId ownerName ownerType).2
    unfold RunnerStore.createRunner
    dsimp only
    split_ifs
    · exact .refl s
    · split
      · exact .refl s
      · next runners hins => exact ⟨Table.lasts_insert? hins, .refl _ _⟩
  | touchRunner id now =>
    show Lasting s (s.touchRunner id now).2
    unfold RunnerStore.touchRunner
    split
    · exact .refl s
    · refine ⟨Table.lasts_modify ?_ ?_, .refl _ _⟩
      · exact fun _ => rfl
      · exact fun _ => rfl
  | createToken id principal clientId tokenHash tokenType =>
    show Lasting s (s.createToken id principal clientId tokenHash tokenType).2
    unfold RunnerStore.createToken
    split_ifs
    · exact .refl s
    · exact .refl s
    · exact lasting_of_eq rfl rfl
  | claimTask runner repositoryIds order =>
    show Lasting s (s.claimTask runner repositoryIds order).2
    unfold RunnerStore.claimTask
    dsimp only
    split_ifs
    · exact .refl s
    · exact lasting_of_eq rfl rfl
  | deleteTokens principal => exact lasting_of_eq rfl rfl
  | _ => exact .refl s

/-- The event deletes a repository. -/
def CiEvent.Deletes : CiEvent → Prop
  | .core e => DeletesRepository e
  | _ => False

/-- **One event.** -/
theorem lasting_event {c : RunnerSetup} (e : CiEvent) (s : RunnerStore) (he : ¬ e.Deletes) :
    Lasting s (afterEvent c e s) := by
  cases e with
  | core e => exact ⟨.refl _ _, lasts_serve e he⟩
  | createTask new s2Uri =>
    simp only [afterEvent]
    split_ifs
    · exact lasting_of_eq rfl rfl
    · exact .refl s
  | updateTask id status => exact lasting_of_eq rfl rfl
  | unblockTasks build => exact lasting_of_eq rfl rfl

/-! ### Runs -/

/-- No runner and no repository is deleted. -/
def NoneDeleted (P : RunnerPool) : RunnerMove → Prop
  | .env e => ¬ e.Deletes
  | m => OnCalls (fun _ _ call => ¬ call.Deletes) P m

/-- The runner that polls. -/
def RunnerOp.poller : RunnerOp → Option Uuid
  | .pollTask runner _ _ _ => some runner
  | .request .. => none

/-- The repositories that a list for a poll finds belong to the owner of the
runner. -/
def ListsOwn (c : RunnerSetup) : RunnerPool → RunnerMove → Prop :=
  OnCalls fun P x call => ∀ ownerName, call = .listRepositories ownerName none none maxPerPageLimit →
    ∀ id, x.op.poller = some id → ∀ runner, P.sys.store.runners.get? id = some runner →
      ∀ r, OnPage (repositoryCursor c) none maxPerPageLimit
        (repositoriesOf P.sys.store.core runner.ownerName none) r → r.ownerId = runner.ownerId

/-- A poll that has returned a task returned one of a repository of its runner's
owner. -/
def RunnersServeOwners (P : RunnerPool) : Prop :=
  ∀ n op id task, P.result n = some (op, .ok (.task (some task))) → op.poller = some id →
    ∃ runner r, P.sys.store.runners.get? id = some runner ∧
      P.sys.store.core.repositories.get? task.repositoryId = some r ∧ r.ownerId = runner.ownerId

/-- What lasts in a run that deletes nothing. -/
theorem lasting_later {c : RunnerSetup} {guard : RunnerPool → RunnerMove → Prop}
    {P P' : RunnerPool} (hg : ∀ P m, guard P m → NoneDeleted P m)
    (hl : Later (runnerCalls c) (runnerProgram c) (afterEvent c) guard P P') :
    Lasting P.sys.store P'.sys.store := by
  refine hl.le_of_guard Lasting.refl Lasting.trans ?_ ?_
  · intro Q n fate op call k hguard hn
    have hcall : OnCalls (fun _ _ call => ¬ call.Deletes) Q (.step n fate : RunnerMove) := hg Q _ hguard
    exact lasting_exec call _ (hcall.of_thread hn)
  · exact fun Q e hguard => lasting_event e _ (hg Q _ hguard)

/-! ### What a poll asks -/

abbrev Seen : Type := List (Prog.Event RunnerCall RunnerCall.Resp RunnerCallError)

/-- What a request may ask after what it has seen: a poll lists the repositories
of its runner's row, and claims a task of those it was given. -/
def Asked (op : RunnerOp) (seen : Seen) : RunnerCall → Prop
  | .listRepositories ownerName viewer cursor limit =>
    (viewer = none ∧ cursor = none ∧ limit = maxPerPageLimit) ∧ ∃ id runner, op.poller = some id ∧
      ⟨.getRunnerById id, .ok (some runner)⟩ ∈ seen ∧ ownerName = runner.ownerName
  | .claimTask _ repositoryIds _ => ∃ ownerName listed,
    ⟨.listRepositories ownerName none none maxPerPageLimit, .ok listed⟩ ∈ seen ∧
      repositoryIds = listed.1.map Repository.id
  | _ => True

/-- A task that a poll returns, it has claimed. -/
def ReturnsClaimed (op : RunnerOp) (seen : Seen) (r : Except RunnerError RunnerReply) : Prop :=
  op.poller ≠ none → ∀ task, r = .ok (.task (some task)) →
    ∃ id repositoryIds order, ⟨.claimTask id repositoryIds order, .ok (some task)⟩ ∈ seen

theorem obeys_claimUntil {op : RunnerOp} {id : Uuid} {ownerName : String}
    {listed : List Repository × Option Cursor} : ∀ {orders : List (List Uuid)} {order : List Uuid}
    {seen : Seen}, ⟨.listRepositories ownerName none none maxPerPageLimit, .ok listed⟩ ∈ seen →
      Obeys (Asked op) (fun seen r => ∀ task, r = .ok (some task) →
        ∃ id repositoryIds order, ⟨.claimTask id repositoryIds order, .ok (some task)⟩ ∈ seen) seen
        (claimUntil id (listed.1.map Repository.id) order orders)
  | [], order, seen, hs => by
    refine ⟨⟨ownerName, listed, hs, rfl⟩, fun r => ?_⟩
    cases r with
    | error e => exact fun _ h => nomatch h
    | ok found =>
      rintro task h
      cases h
      exact ⟨_, _, _, List.mem_cons_self⟩
  | next :: orders, order, seen, hs => by
    refine ⟨⟨ownerName, listed, hs, rfl⟩, fun r => ?_⟩
    cases r with
    | error e => exact fun _ h => nomatch h
    | ok found =>
      cases found with
      | some task =>
        rintro task' h
        cases h
        exact ⟨_, _, _, List.mem_cons_self⟩
      | none => exact obeys_claimUntil (List.mem_cons_of_mem _ hs)

/-- **Polls.** -/
theorem obeys_pollTask {op : RunnerOp} {id : Uuid} {now : Auth.Time} {order : List Uuid}
    {orders : List (List Uuid)} (hop : op.poller = some id) :
    Obeys (Asked op) (fun seen r => ∀ task, r = .ok (some task) →
      ∃ id repositoryIds order, ⟨.claimTask id repositoryIds order, .ok (some task)⟩ ∈ seen) []
      (pollTask id now order orders) := by
  unfold pollTask askRunner
  refine obeys_perform_bind trivial (fun _ _ h => nomatch h) fun _ => ?_
  refine obeys_perform_bind trivial (fun _ _ h => nomatch h) fun row => ?_
  refine obeys_liftExcept_bind (fun _ _ h => nomatch h) fun runner hrow => ?_
  obtain rfl := okOr_eq_ok.mp hrow
  refine obeys_perform_bind ?_ (fun _ _ h => nomatch h) fun listed => ?_
  · exact ⟨⟨rfl, rfl, rfl⟩, id, runner, hop, List.mem_cons_self, rfl⟩
  · exact obeys_claimUntil List.mem_cons_self

/-- The calls of the requests on runners. -/
def RunnerCall.Manages : RunnerCall → Prop
  | .listRepositories .. => False
  | .claimTask .. => False
  | _ => True

theorem manages_ask {call : RunnerCall} (hc : call.Manages) :
    (askRunner call).Calls RunnerCall.Manages := calls_perform hc

theorem manages_createRunner (d : RunnerDraws) (request : CreateRunnerRequest) :
    (createRunner d request).Calls RunnerCall.Manages := by
  unfold createRunner runnerOwnerId
  refine calls_bind (fun _ => ?_) ?_
  · exact manages_ask trivial
  cases request.ownerType with
  | user => exact calls_pure
  | organization =>
    refine calls_bind (fun _ => ?_) (manages_ask trivial)
    exact calls_bind (fun _ => calls_pure) calls_liftExcept

theorem manages_refreshRunnerToken (c : RunnerSetup) (d : RunnerDraws)
    (request : CreateRunnerTokenRequest) :
    (refreshRunnerToken c d request).Calls RunnerCall.Manages := by
  unfold refreshRunnerToken
  refine calls_bind (fun _ => ?_) (manages_ask trivial)
  refine calls_bind (fun _ => ?_) calls_liftExcept
  refine calls_bind (fun _ => ?_) (manages_ask trivial)
  exact calls_bind (fun _ => calls_pure) (manages_ask trivial)

theorem manages_listRunners (request : ListRunnersRequest) :
    (listRunners request).Calls RunnerCall.Manages := by
  unfold listRunners
  exact calls_bind (fun _ => calls_pure) (manages_ask trivial)

theorem manages_deleteRunner (request : DeleteRunnerRequest) :
    (deleteRunner request).Calls RunnerCall.Manages := by
  unfold deleteRunner
  refine calls_bind (fun _ => ?_) (manages_ask trivial)
  refine calls_bind (fun _ => ?_) calls_liftExcept
  exact calls_perform trivial

theorem manages_handleRunner (c : RunnerSetup) (d : RunnerDraws) (caller : Uuid)
    (request : RunnerRequest) : (handleRunner c d caller request).Calls RunnerCall.Manages := by
  cases request with
  | createRunner owner name ownerType =>
    unfold handleRunner createRunnerHandler
    refine calls_bind (fun request => ?_) calls_liftExcept
    exact calls_bind (fun _ => calls_pure) (manages_createRunner d request)
  | refreshRunnerToken owner name =>
    unfold handleRunner refreshRunnerTokenHandler
    exact calls_bind (fun _ => calls_pure) (manages_refreshRunnerToken c d _)
  | listRunners owner cursor limit =>
    unfold handleRunner listRunnersHandler
    exact calls_bind (fun _ => calls_pure) (manages_listRunners _)
  | deleteRunner owner name =>
    unfold handleRunner deleteRunnerHandler
    exact calls_bind (fun _ => calls_pure) (manages_deleteRunner _)

theorem obeys_runnerProgram (c : RunnerSetup) (op : RunnerOp) :
    Obeys (Asked op) (ReturnsClaimed op) [] (runnerProgram c op) := by
  cases op with
  | request d caller request =>
    refine (manages_handleRunner c d caller request).obeys (fun seen call hcall => ?_) ?_
    · cases call with
      | listRepositories => exact hcall.elim
      | claimTask => exact hcall.elim
      | _ => trivial
    · exact fun _ _ hop => absurd rfl hop
  | pollTask id now order orders =>
    unfold runnerProgram
    refine obeys_bind (fun seen task hclaimed => ?_) ?_ (obeys_pollTask rfl)
    · intro _ task' h
      cases h
      exact hclaimed task' rfl
    · exact fun _ _ _ _ _ h => nomatch h

/-! ### Whose tasks a poll returns -/

/-- A task that is claimed was the pending task of one of the repositories. -/
theorem claimTask_eq_some {s : RunnerStore} {id : Uuid} {repositoryIds order : List Uuid}
    {task : Task} (h : (s.claimTask id repositoryIds order).1 = .ok (some task)) :
    ∃ found ∈ order, ∃ row, s.tasks.get? found = some row ∧ row.status = .pending ∧
      row.repositoryId ∈ repositoryIds ∧ task.repositoryId = row.repositoryId := by
  have hclaim : (TaskTable.claimTask s.tasks id repositoryIds order).1 = some task := by
    unfold RunnerStore.claimTask at h
    dsimp only at h
    split_ifs at h
    exact Except.ok.inj h
  unfold TaskTable.claimTask at hclaim
  split at hclaim
  · cases hclaim
  · next found hfound =>
    dsimp only at hclaim
    rw [Table.get?_modify, if_pos rfl] at hclaim
    obtain ⟨row, hrow, rfl⟩ := Option.map_eq_some_iff.mp hclaim
    obtain ⟨row', hrow', hpending, hmem⟩ : TaskTable.Claimable s.tasks repositoryIds found := by
      simpa using List.find?_some hfound
    obtain rfl := Option.some.inj (hrow.symm.trans hrow')
    exact ⟨found, List.mem_of_find?_eq_some hfound, row, hrow, hpending, hmem, rfl⟩

theorem repositoryId_of_claimTask {s : RunnerStore} {id : Uuid} {repositoryIds order : List Uuid}
    {task : Task} (h : (s.claimTask id repositoryIds order).1 = .ok (some task)) :
    task.repositoryId ∈ repositoryIds := by
  obtain ⟨found, -, row, -, -, hmem, hid⟩ := claimTask_eq_some h
  rwa [hid]

instance (e : Request) : Decidable (DeletesRepository e) := by
  cases e <;> first | exact isTrue trivial | exact isFalse id

instance : (e : CiEvent) → Decidable e.Deletes
  | .core e => inferInstanceAs (Decidable (DeletesRepository e))
  | .createTask _ _ => isFalse id
  | .updateTask _ _ => isFalse id
  | .unblockTasks _ => isFalse id

instance (call : RunnerCall) : Decidable call.Deletes := by
  cases call <;> first | exact isTrue trivial | exact isFalse id

instance (P : RunnerPool) : (m : RunnerMove) → Decidable (NoneDeleted P m)
  | .env e => inferInstanceAs (Decidable (¬ e.Deletes))
  | .start op => inferInstanceAs
    (Decidable (OnCalls (fun _ _ call => ¬ RunnerCall.Deletes call) P (.start op : RunnerMove)))
  | .step n fate => inferInstanceAs
    (Decidable (OnCalls (fun _ _ call => ¬ RunnerCall.Deletes call) P (.step n fate : RunnerMove)))

/-- The repositories found under the name in a runner's row are its owner's. -/
def NamesOwn (s : RunnerStore) : Prop :=
  ∀ runner ∈ s.runners.rows, ∀ r ∈ repositoriesOf s.core runner.ownerName none,
    r.ownerId = runner.ownerId

instance (s : RunnerStore) : Decidable (NamesOwn s) :=
  inferInstanceAs (Decidable (∀ runner ∈ s.runners.rows,
    ∀ r ∈ repositoriesOf s.core runner.ownerName none, r.ownerId = runner.ownerId))

theorem NamesOwn.listsOwn {c : RunnerSetup} {P : RunnerPool} (h : NamesOwn P.sys.store)
    (m : RunnerMove) : ListsOwn c P m := by
  intro _ _ _ _ _ _ runner hrow r hpage
  exact h runner (Table.mem_rows_of_get? hrow) r (mem_below hpage.1)

/-- The user 1 becomes `alice` and registers the runner 3, `alice/box`. -/
def registersBox : List RunnerMove :=
  [.env (.core (.createUser 1 7)), .env (.core (.updateCurrentUser 1 "alice")),
    .start (.request ⟨3, "", 5⟩ 1 (.createRunner "alice" "box" "user")), .step 0 .answered]

/-- The user makes the public repository `alice/site`, a task comes for it, and
the runner 3 polls. -/
def pollsFor (caller : Uuid) : List RunnerMove :=
  [.env (.core (.createRepository 9 caller "alice" "site" .user .publicRepo)),
    .env (.createTask ⟨6, 9, "lint", "true", 4, .pending, []⟩ ""),
    .start (.pollTask 3 6 [6] [])] ++ List.replicate 4 (.step 1 .answered)

/-- The user 1 becomes `carol`, and the user 2 takes the name it had. -/
def handsOver : List RunnerMove :=
  [.env (.core (.updateCurrentUser 1 "carol")), .env (.core (.createUser 2 8)),
    .env (.core (.updateCurrentUser 2 "alice"))]

end Ci
end Gitdot
