/-
# What a call has under way

Between the file operations and the statements of one call the rows and the
directories do not agree. What a call has seen tells what it still has to do: a
rename has moved the directory of its user and the row has not followed
(`moved`), a repository has its git directory and no row yet (`making`), or has
its row and no directory any more (`removed`).

Every call is made with what the source has made sure of before it (`Steps`): a
directory is moved back to where it came from, a row is inserted for a directory
that was made, and a clean-up comes after the row was refused or removed. A
request ends with nothing under way; one that fails has undone what it did, as
far as its own program goes (`Ends`, `obeys_steps`).

Key definitions: `moved`, `making`, `found`, `removed`, `Plan`, `planned`,
`Steps`, `Ends`.
Key theorems: `obeys_steps`.
-/
import Gitdot.Server.Housing

namespace Gitdot
namespace Site

open Lib Prog

/-! ### Events -/

/-- From where and to where a rename has moved the directory, until the row
follows or it is moved back. -/
def moved : List SiteEvent → Option (String × String)
  | [] => none
  | ⟨.renameOwner old new, answer⟩ :: seen =>
    match moved seen, answer with
    | none, .ok _ => some (old, new)
    | _, _ => none
  | ⟨.updateUser _ (some _), .ok _⟩ :: _ => none
  | _ :: seen => moved seen

/-- A git directory was made. -/
def isMaking : SiteEvent → Bool
  | ⟨.createRepo .., .ok _⟩ | ⟨.mirrorRepo .., .ok _⟩ => true
  | _ => false

/-- A hook could not be written. -/
def isHookFailure : SiteEvent → Bool
  | ⟨.emptyHooks .., .error _⟩ | ⟨.installHook .., .error _⟩ => true
  | _ => false

/-- A row was asked for. -/
def isInsertion : SiteEvent → Bool
  | ⟨.insertRepository .., _⟩ => true
  | _ => false

/-- A row was inserted. -/
def isInserted : SiteEvent → Bool
  | ⟨.insertRepository .., .ok _⟩ => true
  | _ => false

/-- A row was removed, or was to be. -/
def isDeletion : SiteEvent → Bool
  | ⟨.deleteRow _, _⟩ => true
  | _ => false

/-- A row could not be removed. -/
def isDeletionFailure : SiteEvent → Bool
  | ⟨.deleteRow _, .error _⟩ => true
  | _ => false

/-- A git directory was removed, or was to be. -/
def isRemoval : SiteEvent → Bool
  | ⟨.deleteRepo .., _⟩ => true
  | _ => false

/-- A git directory was removed. -/
def isRemoved : SiteEvent → Bool
  | ⟨.deleteRepo .., .ok _⟩ => true
  | _ => false

/-- A git directory was made, and whether it gets its row is open. -/
def making (seen : List SiteEvent) : Bool :=
  seen.any isMaking && !seen.any isHookFailure && !seen.any isInsertion

/-- The repository that was found at a path. -/
def found : List SiteEvent → Option Repository
  | [] => none
  | ⟨.getRepository .., .ok (some repository)⟩ :: _ => some repository
  | _ :: seen => found seen

/-- The repository that was found, once its git directory is removed and until
its row is. -/
def removed : List SiteEvent → Option Uuid
  | ⟨.deleteRepo .., .ok _⟩ :: seen => (found seen).map Repository.id
  | _ => none

/-- The organization that was found under a name. -/
def foundOrganization : List SiteEvent → Option Organization
  | [] => none
  | ⟨.getOrganization _, .ok (some organization)⟩ :: _ => some organization
  | _ :: seen => foundOrganization seen

/-! ### Plans -/

/-- The repository that a request is to make. -/
structure Plan where
  owner : String
  name : String
  id : Uuid
  ownerType : RepositoryOwnerType
  deriving DecidableEq

def planned : SiteOp → Option Plan
  | .createRepository r => some ⟨r.owner, r.name, r.id, r.ownerType⟩
  | .migrateSingleRepository r => some ⟨r.ownerName, r.repoName, r.id, r.ownerType⟩
  | _ => none

/-- The row that the repository is to belong to. -/
def plannedOwner : SiteOp → List SiteEvent → Option Uuid
  | .createRepository r, seen =>
    match r.ownerType with
    | .user => some r.userId
    | .organization => (foundOrganization seen).map Organization.id
  | .migrateSingleRepository r, _ => some r.ownerId
  | _, _ => none

/-- The request neither signs a user up nor makes an organization. -/
def SiteOp.keepsOwners : SiteOp → Bool
  | .signUp .. | .createOrganization .. => false
  | _ => true

/-! ### The protocol -/

/-- What is made sure of before a call. -/
def Before (op : SiteOp) (seen : List SiteEvent) : SiteCall → Prop
  | .insertUser .. | .insertOrganization .. => False
  | .getOrganization name => (∃ r, op = .createRepository r ∧ r.owner = name) ∧
    seen.any isMaking = false
  | .renameOwner old new => (∃ id name, op = .updateCurrentUser id name) ∧
    old ≠ new ∧ (moved seen = none ∨ moved seen = some (new, old))
  | .updateUser id (some new) => (∃ name, op = .updateCurrentUser id name) ∧
    ∃ old, moved seen = some (old, new)
  | .createRepo owner repo id | .mirrorRepo owner repo id =>
    (∃ ownerType, planned op = some ⟨owner, repo, id, ownerType⟩) ∧
      (plannedOwner op seen).isSome ∧ seen.any isMaking = false ∧ seen.any isHookFailure = false ∧
        seen.any isInsertion = false ∧ seen.any isRemoval = false
  | .insertRepository id name ownerId ownerType _ _ =>
    (∃ owner, planned op = some ⟨owner, name, id, ownerType⟩) ∧
      plannedOwner op seen = some ownerId ∧ making seen = true ∧ seen.any isDeletion = false
  | .deleteRepo owner repo => (∃ p, planned op = some p ∧ p.owner = owner ∧ p.name = repo ∧
      seen.any isMaking = true ∧ making seen = false ∧
        (seen.any isInserted = false ∨ seen.any isDeletion = true)) ∨
    planned op = none ∧ making seen = false ∧ (found seen).isSome
  | .deleteRow id => ∃ p, planned op = some p ∧ p.id = id ∧ making seen = false
  | .emptyHooks .. => ∃ r, op = .migrateSingleRepository r
  | .installHook owner repo _ => ∃ p, planned op = some p ∧ p.owner = owner ∧ p.name = repo ∧
    making seen = true
  | _ => True

/-- How the calls of a request follow each other. A row is removed after its git
directory, or after the first commit has failed. -/
def Steps (op : SiteOp) (seen : List SiteEvent) (c : SiteCall) : Prop :=
  op.keepsOwners = true → (removed seen = none ∧ Before op seen c) ∨
    planned op = none ∧ making seen = false ∧ ∃ id, removed seen = some id ∧ c = .deleteRow id

/-- What a request that has failed has undone. -/
def Undone (op : SiteOp) (seen : List SiteEvent) : Prop :=
  match planned op with
  | some _ => (seen.any isMaking = false ∨ seen.any isRemoval = true ∨
      (∃ r, op = .createRepository r) ∧ seen.any isHookFailure = true) ∧
    (seen.any isInserted = false ∨ seen.any isDeletion = true)
  | none => seen.any isRemoved = false ∨ seen.any isDeletionFailure = true

/-- How a request ends. -/
structure Ends (op : SiteOp) (seen : List SiteEvent) (r : Except AppError Unit) : Prop where
  moved : moved seen = none
  removed : removed seen = none
  undone : ∀ e, r = .error e → Undone op seen

abbrev ObeysSteps (op : SiteOp) (seen : List SiteEvent) (p : SiteProg Unit) : Prop :=
  Obeys (Steps op) (fun seen r => op.keepsOwners = true → Ends op seen r) seen p

section Protocol

variable {names : Names} {op : SiteOp} {seen : List SiteEvent} {c : SiteCall} {p : SiteProg Unit}

theorem Before.steps (hremoved : removed seen = none) (h : Before op seen c) : Steps op seen c :=
  fun _ => .inl ⟨hremoved, h⟩

theorem obeys_of_not_keepsOwners (h : op.keepsOwners = false) :
    ∀ {p : SiteProg Unit} {seen : List SiteEvent}, ObeysSteps op seen p
  | .ret _, _ => fun hop => absurd hop (by simp [h])
  | .fail _, _ => fun hop => absurd hop (by simp [h])
  | .call _ _, _ => ⟨fun hop => absurd hop (by simp [h]), fun _ => obeys_of_not_keepsOwners h⟩

/-- Nothing is under way, and no directory was removed. -/
structure Quiet (seen : List SiteEvent) : Prop where
  moved : moved seen = none
  removed : removed seen = none
  kept : seen.any isRemoved = false

theorem Quiet.ends {r : Except AppError Unit} (h : Quiet seen) (hop : planned op = none) :
    Ends op seen r := by
  refine ⟨h.moved, h.removed, fun _ _ => ?_⟩
  unfold Undone
  rw [hop]
  exact .inl h.kept

/-- A request that moves and removes nothing may end in success. -/
theorem ends_ok {a : Unit} (hmoved : moved seen = none) (hremoved : removed seen = none) :
    Ends op seen (.ok a) := by
  refine ⟨hmoved, hremoved, fun e he => ?_⟩
  cases he

theorem obeysSteps_renameUser {caller : Uuid} {name : Option String} {old new : String}
    (h : Quiet seen) (hne : old ≠ new) :
    ObeysSteps (.updateCurrentUser caller name) seen (renameUser caller old new) := by
  have hmoved : ∀ {seen : List SiteEvent}, Quiet seen →
      moved (⟨.renameOwner old new, .ok ()⟩ :: seen) = some (old, new) := by
    intro seen h
    simp only [moved, h.moved]
  refine obeys_perform_bind (Before.steps h.removed ⟨⟨_, _, rfl⟩, hne, .inl h.moved⟩) (fun e _ => ?_)
    fun _ => ?_
  · exact Quiet.ends ⟨by simp only [moved, h.moved], rfl, h.kept⟩ rfl
  refine ⟨Before.steps rfl ⟨⟨name, rfl⟩, old, hmoved h⟩, fun r => ?_⟩
  cases r with
  | ok a => exact fun _ => Quiet.ends ⟨rfl, rfl, h.kept⟩ rfl
  | error e =>
    refine ⟨Before.steps rfl ⟨⟨_, _, rfl⟩, hne.symm, .inr (hmoved h)⟩, fun r _ => ?_⟩
    refine Quiet.ends ⟨?_, rfl, h.kept⟩ rfl
    cases r <;> simp only [moved, h.moved]

theorem obeysSteps_updateCurrentUser {caller : Uuid} {name : Option String} :
    ObeysSteps (.updateCurrentUser caller name) [] (updateCurrentUser names caller name) := by
  refine obeys_bind (R := fun seen rename => Quiet seen ∧
    ∀ old new, rename = .ok (some (old, new)) → old ≠ new) (fun seen rename h => ?_)
    (fun _ _ h _ => h.1.ends rfl) ?_
  · cases rename with
    | none =>
      refine obeys_perform_bind (Before.steps h.1.removed trivial) (fun _ _ => ?_) fun _ _ => ?_
      · exact Quiet.ends ⟨h.1.moved, rfl, h.1.kept⟩ rfl
      · exact Quiet.ends ⟨h.1.moved, rfl, h.1.kept⟩ rfl
    | some rename => exact obeysSteps_renameUser h.1 (h.2 rename.1 rename.2 rfl)
  · cases name with
    | none => exact ⟨⟨rfl, rfl, rfl⟩, nofun⟩
    | some new =>
      refine obeys_ite (fun _ => ⟨⟨rfl, rfl, rfl⟩, nofun⟩) fun _ => ?_
      refine obeys_perform_bind (Before.steps rfl trivial) (fun _ => ⟨⟨rfl, rfl, rfl⟩, nofun⟩)
        fun taken => ?_
      refine obeys_ite (fun _ => ⟨⟨rfl, rfl, rfl⟩, nofun⟩) fun _ => ?_
      refine obeys_perform_bind (Before.steps rfl trivial) (fun _ => ⟨⟨rfl, rfl, rfl⟩, nofun⟩)
        fun user => ?_
      cases user with
      | none => exact ⟨⟨rfl, rfl, rfl⟩, nofun⟩
      | some user =>
        refine obeys_pure ⟨⟨rfl, rfl, rfl⟩, fun old new' heq => ?_⟩
        by_cases hsame : user.name = new
        · rw [if_pos hsame] at heq
          cases heq
        · rw [if_neg hsame] at heq
          cases heq
          exact hsame

/-- A directory was made or not, and nothing has come of it yet. -/
structure Begun (made : Bool) (seen : List SiteEvent) : Prop where
  moved : moved seen = none
  removed : removed seen = none
  found : found seen = none
  made : seen.any isMaking = made
  hooks : seen.any isHookFailure = false
  insertion : seen.any isInsertion = false
  inserted : seen.any isInserted = false
  deletion : seen.any isDeletion = false
  removal : seen.any isRemoval = false

theorem Begun.making (h : Begun true seen) : making seen = true := by
  unfold Site.making
  rw [h.made, h.hooks, h.insertion]
  rfl

theorem ends_of_undone {plan : Plan} {r : Except AppError Unit} (hop : planned op = some plan)
    (hm : moved seen = none) (hr : removed seen = none)
    (hmade : seen.any isMaking = false ∨ seen.any isRemoval = true ∨
      (∃ r, op = .createRepository r) ∧ seen.any isHookFailure = true)
    (hrow : seen.any isInserted = false ∨ seen.any isDeletion = true) : Ends op seen r := by
  refine ⟨hm, hr, fun _ _ => ?_⟩
  unfold Undone
  rw [hop]
  exact ⟨hmade, hrow⟩

theorem Begun.ends {plan : Plan} {r : Except AppError Unit} (h : Begun false seen)
    (hop : planned op = some plan) : Ends op seen r :=
  ends_of_undone hop h.moved h.removed (.inl h.made) (.inl h.inserted)

/-- A hook could not be written, and nothing more has happened. -/
structure Unhooked (seen : List SiteEvent) : Prop where
  moved : moved seen = none
  removed : removed seen = none
  found : found seen = none
  made : seen.any isMaking = true
  hooks : seen.any isHookFailure = true
  inserted : seen.any isInserted = false

/-- What the hooks leave. -/
def Hooked (op : SiteOp) (ownerId : Option Uuid) (seen : List SiteEvent) : Except AppError Unit → Prop
  | .ok _ => Begun true seen ∧ plannedOwner op seen = ownerId
  | .error _ => Unhooked seen

/-- A hook that could be written changes nothing of what is under way. -/
theorem Begun.hook {made : Bool} {owner repo : String} {hook : GitHookType} (h : Begun made seen) :
    Begun made (⟨.installHook owner repo hook, .ok ()⟩ :: seen) :=
  ⟨h.moved, rfl, h.found, h.made, h.hooks, h.insertion, h.inserted, h.deletion, h.removal⟩

theorem plannedOwner_cons {op : SiteOp} {e : SiteEvent}
    (he : foundOrganization (e :: seen) = foundOrganization seen) :
    plannedOwner op (e :: seen) = plannedOwner op seen := by
  cases op with
  | createRepository request => simp only [plannedOwner, he]
  | _ => rfl

theorem obeys_installHooks {p : Plan} (hop : planned op = some p) (h : Begun true seen) :
    Obeys (Steps op) (Hooked op (plannedOwner op seen)) seen (installHooks p.owner p.name) := by
  have hbefore : ∀ {seen : List SiteEvent} {hook : GitHookType}, Begun true seen →
      Steps op seen (.installHook p.owner p.name hook) := fun h =>
    Before.steps h.removed ⟨p, hop, rfl, rfl, h.making⟩
  have hunhooked : ∀ {seen : List SiteEvent} {hook : GitHookType} {e : AppError}, Begun true seen →
      Unhooked (⟨.installHook p.owner p.name hook, .error e⟩ :: seen) := fun h =>
    ⟨h.moved, rfl, h.found, h.made, rfl, h.inserted⟩
  refine obeys_perform_bind (hbefore h) (fun e => hunhooked h) fun _ => ?_
  refine obeys_perform_bind (hbefore h.hook) (fun e => hunhooked h.hook) fun _ => ?_
  refine ⟨hbefore h.hook.hook, fun r => ?_⟩
  cases r with
  | ok a =>
    refine ⟨h.hook.hook.hook, ?_⟩
    rw [plannedOwner_cons rfl, plannedOwner_cons rfl, plannedOwner_cons rfl]
  | error e => exact hunhooked h.hook.hook

/-- A row was inserted for the directory. -/
structure Rowed (seen : List SiteEvent) : Prop where
  moved : moved seen = none
  removed : removed seen = none
  found : found seen = none
  made : seen.any isMaking = true
  insertion : seen.any isInsertion = true
  deletion : seen.any isDeletion = false

/-- Nothing is found in what was removed by a request that has found nothing. -/
theorem removed_of_found {owner repo : String} {r : Except AppError Unit} (h : found seen = none) :
    removed (⟨.deleteRepo owner repo, r⟩ :: seen) = none := by
  cases r with
  | ok a => exact congrArg (Option.map Repository.id) h
  | error e => rfl

theorem obeysSteps_initialCommit {request : CreateRepositoryRequest} (h : Rowed seen) :
    ObeysSteps (.createRepository request) seen (initialCommit request) := by
  have hmaking : making seen = false := by
    unfold making
    rw [h.insertion]
    simp
  have hop : planned (.createRepository request) =
      some ⟨request.owner, request.name, request.id, request.ownerType⟩ := rfl
  refine obeys_ite (fun _ => ?_) fun _ _ => ends_ok h.moved h.removed
  refine ⟨Before.steps h.removed trivial, fun r => ?_⟩
  cases r with
  | ok a => exact fun _ => ends_ok h.moved rfl
  | error e =>
    refine ⟨Before.steps rfl ⟨_, hop, rfl, hmaking⟩, fun r => ?_⟩
    refine ⟨Before.steps rfl (.inl ⟨_, hop, rfl, rfl, h.made, hmaking, .inr rfl⟩), fun r _ => ?_⟩
    exact ends_of_undone hop h.moved (removed_of_found h.found) (.inr (.inl rfl)) (.inr rfl)

theorem obeysSteps_makeRepository {request : CreateRepositoryRequest} {ownerId : Uuid}
    (h : Begun false seen)
    (howner : plannedOwner (.createRepository request) seen = some ownerId) :
    ObeysSteps (.createRepository request) seen (makeRepository request ownerId) := by
  have hop : planned (.createRepository request) =
      some ⟨request.owner, request.name, request.id, request.ownerType⟩ := rfl
  refine obeys_perform_bind (Before.steps h.removed ?_) (fun e _ => ?_) fun _ => ?_
  · refine ⟨⟨request.ownerType, rfl⟩, ?_, h.made, h.hooks, h.insertion, h.removal⟩
    rw [howner]
    rfl
  · have hnone : Begun false (⟨.createRepo request.owner request.name request.id, .error e⟩ :: seen) :=
      ⟨h.moved, rfl, h.found, h.made, h.hooks, h.insertion, h.inserted, h.deletion, h.removal⟩
    exact hnone.ends hop
  have hmade : Begun true (⟨.createRepo request.owner request.name request.id, .ok ()⟩ :: seen) :=
    ⟨h.moved, rfl, h.found, rfl, h.hooks, h.insertion, h.inserted, h.deletion, h.removal⟩
  refine obeys_bind (fun seen' _ h' => ?_) (fun seen' e h' _ => ?_) (obeys_installHooks hop hmade)
  · obtain ⟨h', howner'⟩ := h'
    rw [plannedOwner_cons rfl, howner] at howner'
    refine ⟨Before.steps h'.removed ⟨⟨_, hop⟩, howner', h'.making, h'.deletion⟩, fun r => ?_⟩
    cases r with
    | ok row => exact obeysSteps_initialCommit ⟨h'.moved, rfl, h'.found, h'.made, rfl, h'.deletion⟩
    | error e =>
      refine ⟨Before.steps rfl (.inl ⟨_, hop, rfl, rfl, h'.made, ?_, .inl h'.inserted⟩), fun r _ => ?_⟩
      · simp [making, isInsertion]
      · exact ends_of_undone hop h'.moved (removed_of_found h'.found) (.inr (.inl rfl))
          (.inl h'.inserted)
  · exact ends_of_undone hop h'.moved h'.removed (.inr (.inr ⟨⟨_, rfl⟩, h'.hooks⟩)) (.inl h'.inserted)

theorem obeysSteps_createRepository {request : CreateRepositoryRequest} :
    ObeysSteps (.createRepository request) [] (createRepository names request) := by
  have hop : planned (.createRepository request) =
      some ⟨request.owner, request.name, request.id, request.ownerType⟩ := rfl
  have hverified : ∀ asked r, Begun false [⟨.verifyAuthorizedForRepositoryCreation asked, r⟩] :=
    fun _ _ => ⟨rfl, rfl, rfl, rfl, rfl, rfl, rfl, rfl, rfl⟩
  have hlooked : ∀ asked r r', Begun false [⟨.repoExists request.owner request.name, r'⟩,
      ⟨.verifyAuthorizedForRepositoryCreation asked, r⟩] :=
    fun _ _ _ => ⟨rfl, rfl, rfl, rfl, rfl, rfl, rfl, rfl, rfl⟩
  have hnamed : ∀ asked r r' r'', Begun false [⟨.getOrganization request.owner, r''⟩,
      ⟨.repoExists request.owner request.name, r'⟩, ⟨.verifyAuthorizedForRepositoryCreation asked, r⟩] :=
    fun _ _ _ _ => ⟨rfl, rfl, rfl, rfl, rfl, rfl, rfl, rfl, rfl⟩
  refine obeys_perform_bind (Before.steps rfl trivial) (fun e _ => (hverified _ _).ends hop)
    fun authorized => ?_
  cases authorized with
  | error e => exact fun _ => (hverified _ _).ends hop
  | ok a =>
    refine obeys_ite (fun _ _ => (hverified _ _).ends hop) fun _ => ?_
    refine ⟨Before.steps rfl trivial, fun answer => ?_⟩
    refine obeys_ite (fun _ _ => (hlooked _ _ _).ends hop) fun _ => ?_
    refine obeys_bind (R := fun seen r => Begun false seen ∧ ∀ ownerId, r = .ok ownerId →
      plannedOwner (.createRepository request) seen = some ownerId)
      (fun seen ownerId h => obeysSteps_makeRepository h.1 (h.2 ownerId rfl))
      (fun _ _ h _ => h.1.ends hop) ?_
    unfold ownerOf
    cases htype : request.ownerType with
    | user =>
      refine ⟨hlooked _ _ _, fun ownerId heq => ?_⟩
      rw [← Except.ok.inj heq]
      simp only [plannedOwner, htype]
    | organization =>
      refine obeys_perform_bind (Before.steps rfl ⟨⟨request, rfl, rfl⟩, rfl⟩)
        (fun e => ⟨hnamed _ _ _ _, nofun⟩) fun organization => ?_
      cases organization with
      | none => exact ⟨hnamed _ _ _ _, nofun⟩
      | some organization =>
        refine ⟨hnamed _ _ _ _, fun ownerId heq => ?_⟩
        rw [← Except.ok.inj heq]
        simp only [plannedOwner, htype, foundOrganization, Option.map_some]

theorem obeysSteps_deleteRepository {caller : Uuid} {owner repo : String} :
    ObeysSteps (.deleteRepository caller owner repo) [] (deleteRepository caller owner repo) := by
  refine obeys_perform_bind (Before.steps rfl trivial) (fun e _ => Quiet.ends ⟨rfl, rfl, rfl⟩ rfl)
    fun authorized => ?_
  cases authorized with
  | error e => exact fun _ => Quiet.ends ⟨rfl, rfl, rfl⟩ rfl
  | ok a =>
    refine obeys_perform_bind (Before.steps rfl trivial) (fun e _ => Quiet.ends ⟨rfl, rfl, rfl⟩ rfl)
      fun repository => ?_
    cases repository with
    | none => exact fun _ => Quiet.ends ⟨rfl, rfl, rfl⟩ rfl
    | some repository =>
      refine obeys_perform_bind (Before.steps rfl (.inr ⟨rfl, rfl, rfl⟩))
        (fun e _ => Quiet.ends ⟨rfl, rfl, rfl⟩ rfl) fun _ => ?_
      refine ⟨fun _ => .inr ⟨rfl, rfl, repository.id, rfl, rfl⟩, fun r => ?_⟩
      cases r with
      | ok a => exact fun _ => ends_ok rfl rfl
      | error e => exact fun _ => ⟨rfl, rfl, fun _ _ => .inr rfl⟩

/-- What a program that is cleaned up after ends with. -/
theorem obeys_orDeleteRepo {Q : List SiteEvent → SiteCall → Prop}
    {R S : List SiteEvent → Except AppError Unit → Prop} {owner repo : String}
    (hret : ∀ seen a, S seen (.ok a) → R seen (.ok a))
    (hfail : ∀ seen e, S seen (.error e) → Q seen (.deleteRepo owner repo) ∧
      ∀ r, R (⟨.deleteRepo owner repo, r⟩ :: seen) (.error e)) :
    ∀ {p : SiteProg Unit} {seen : List SiteEvent}, Obeys Q S seen p →
      Obeys Q R seen (orDeleteRepo owner repo p)
  | .ret a, seen, h => hret seen a h
  | .fail e, seen, h => hfail seen e h
  | .call _ _, _, h => ⟨h.1, fun r => obeys_orDeleteRepo hret hfail (h.2 r)⟩

/-- A directory is there and will not get its row. -/
structure Unrowed (seen : List SiteEvent) : Prop where
  moved : moved seen = none
  removed : removed seen = none
  found : found seen = none
  made : seen.any isMaking = true
  making : making seen = false
  inserted : seen.any isInserted = false

theorem Unhooked.unrowed (h : Unhooked seen) : Unrowed seen := by
  refine ⟨h.moved, h.removed, h.found, h.made, ?_, h.inserted⟩
  unfold making
  rw [h.hooks]
  simp

theorem obeysSteps_migrateSingleRepository {request : MigrationRequest} :
    ObeysSteps (.migrateSingleRepository request) [] (migrateSingleRepository request) := by
  have hop : planned (.migrateSingleRepository request) =
      some ⟨request.ownerName, request.repoName, request.id, request.ownerType⟩ := rfl
  refine obeys_perform_bind (Before.steps rfl trivial) (fun e _ => ?_) fun repository => ?_
  · exact Begun.ends ⟨rfl, rfl, rfl, rfl, rfl, rfl, rfl, rfl, rfl⟩ hop
  cases repository with
  | some repository =>
    exact fun _ => ends_of_undone hop rfl rfl (.inl rfl) (.inl rfl)
  | none =>
    refine obeys_perform_bind (Before.steps rfl ⟨⟨_, hop⟩, rfl, rfl, rfl, rfl, rfl⟩) (fun e _ => ?_)
      fun _ => ?_
    · exact Begun.ends ⟨rfl, rfl, rfl, rfl, rfl, rfl, rfl, rfl, rfl⟩ hop
    refine obeys_orDeleteRepo (S := fun seen r => match r with
      | .ok _ => Rowed seen
      | .error _ => Unrowed seen) (fun seen _ h _ => ends_ok h.moved h.removed)
      (fun seen e h => ⟨?_, fun r _ => ?_⟩) ?_
    · exact Before.steps h.removed (.inl ⟨_, hop, rfl, rfl, h.made, h.making, .inl h.inserted⟩)
    · refine ends_of_undone hop h.moved (removed_of_found h.found) (.inr (.inl rfl)) (.inl h.inserted)
    unfold setupMirroredRepository
    refine obeys_perform_bind (Before.steps rfl ⟨request, rfl⟩) (fun e => ?_) fun _ => ?_
    · exact ⟨rfl, rfl, rfl, rfl, rfl, rfl⟩
    refine obeys_bind (fun seen _ h => ?_) (fun seen e h => h.unrowed)
      (obeys_installHooks hop ⟨rfl, rfl, rfl, rfl, rfl, rfl, rfl, rfl, rfl⟩)
    obtain ⟨h, howner⟩ := h
    refine obeys_perform_bind (Before.steps h.removed ⟨⟨_, hop⟩, howner, h.making, h.deletion⟩)
      (fun e => ?_) fun row => ?_
    · exact ⟨h.moved, rfl, h.found, h.made, by simp [making, isInsertion], h.inserted⟩
    · exact ⟨h.moved, rfl, h.found, h.made, rfl, h.deletion⟩

/-- **Protocol.** Every request follows it. -/
theorem obeys_steps (op : SiteOp) : ObeysSteps op [] (siteProgram names op) := by
  cases op with
  | signUp first second third => exact obeys_of_not_keepsOwners rfl
  | updateCurrentUser caller name => exact obeysSteps_updateCurrentUser
  | createOrganization id caller orgName => exact obeys_of_not_keepsOwners rfl
  | createRepository request => exact obeysSteps_createRepository
  | deleteRepository caller owner repo => exact obeysSteps_deleteRepository
  | migrateSingleRepository request => exact obeysSteps_migrateSingleRepository

end Protocol

end Site
end Gitdot
