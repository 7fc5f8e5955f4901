/-
# One owner for a handle

Users and organizations share the names under which their repositories are
found, but each table has its own unique index. `update_current_user` and
`create_organization` look a name up in both tables before they write it, in
statements of their own, and a sign-up does not look at the organizations at
all; so a name that was free when it was checked may be another owner's when it
is written.

A name has one owner in every run in which no sign-up draws the name of an
organization and no name is written that another call has given away since it
was checked (`Fresh`). What the check found then still holds at the write
(`checked_run`), so the write leaves the name with one row, and a path leads to
at most one repository (`handles_one_owner`).

Key definitions: `SiteCall.userName`, `SiteCall.organizationName`, `noOrganization`,
`noUser`, `Fresh`, `OneOwner`.
Key theorems: `users_exec`, `organizations_exec`, `unique_exec`,
`obeys_siteProgram`, `one_next`, `handles_one_owner`.
-/
import Gitdot.Lib.Stale
import Gitdot.Server.Site

namespace Gitdot
namespace Site

open Lib Prog Keyed

/-! ### Which names the calls write -/

/-- The name that a call writes to `core.users`. -/
def SiteCall.userName : SiteCall → Option String
  | .insertUser _ bytes => some (World.handle bytes)
  | .updateUser _ name => name
  | _ => none

/-- The name that a call writes to `core.organizations`. -/
def SiteCall.organizationName : SiteCall → Option String
  | .insertOrganization _ _ name => some name
  | _ => none

/-- No call writes to both tables. -/
theorem organizationName_of_userName {c : SiteCall} {name : String} (h : c.userName = some name) :
    c.organizationName = none := by
  cases c with
  | insertOrganization id owner new => cases h
  | _ => rfl

section Exec

variable {s t : Storage} {c : SiteCall}

theorem world_inDirectory {owner repo : String} : (s.inDirectory owner repo).2.world = s.world := by
  unfold Storage.inDirectory
  split_ifs <;> rfl

/-- A file operation leaves the rows. -/
theorem world_exec (h : c.onDisk) : (siteExec c s).2.world = s.world := by
  cases c with
  | renameOwner old new =>
    simp only [siteExec]
    split <;> rfl
  | repoExists owner repo => rfl
  | createRepo owner repo madeFor => rfl
  | emptyHooks owner repo => exact world_inDirectory
  | installHook owner repo hook => exact world_inDirectory
  | createInitialCommit owner repo userId =>
    simp only [siteExec]
    split
    · rfl
    · exact world_inDirectory
  | deleteRepo owner repo =>
    simp only [siteExec]
    split_ifs <;> rfl
  | mirrorRepo owner repo madeFor =>
    simp only [siteExec]
    split_ifs <;> rfl
  | _ => cases h

/-- The user has the name, which is no other user's, and the others are as they
were. -/
structure Named (s t : World) (id : Uuid) (name : String) : Prop where
  free : ∀ u ∈ s.users.rows, u.name = name → u.id = id
  rows : ∀ u, u ∈ t.users.rows ↔ u = ⟨id, name⟩ ∨ u ∈ s.users.rows ∧ u.id ≠ id

theorem named_createUser {w : World} {id : Uuid} {bytes : Fin (2 ^ 32)} :
    (w.createUser id bytes).2 = w ∨ ((w.createUser id bytes).1.isOk ∧
      Named w (w.createUser id bytes).2 id (World.handle bytes)) := by
  unfold World.createUser
  split_ifs with htaken
  · exact .inl rfl
  cases hinsert : w.users.insert? ⟨id, World.handle bytes⟩ with
  | none => exact .inl rfl
  | some users =>
    refine .inr ⟨rfl, fun u hu hname => ?_, fun u => ?_⟩
    · have hnone : w.getUser (World.handle bytes) = none := by simpa using htaken
      exact absurd hname (by simpa [World.getUser] using List.find?_eq_none.mp hnone u hu)
    · have hid := Table.get?_eq_none_iff.mp (Table.get?_none_of_insert? hinsert)
      rw [Table.mem_insert? hinsert]
      exact or_congr_right ⟨fun hu => ⟨hu, hid u hu⟩, And.left⟩

/-- `update`, of the name: it is refused, or the user has the name. -/
theorem updateUser_cases (s : Storage) (id : Uuid) (new : String) :
    (∃ e, s.updateUser id (some new) = (.error e, s)) ∨
    ∃ users, s.updateUser id (some new) =
      (.ok (), { s with world := { s.world with users := users } }) ∧
        Named s.world { s.world with users := users } id new := by
  unfold Storage.updateUser
  cases hget : s.world.users.get? id with
  | none => exact .inl ⟨_, rfl⟩
  | some user =>
    obtain rfl : user.id = id := Table.key_of_get? hget
    dsimp only
    split_ifs with htaken
    · exact .inl ⟨_, rfl⟩
    refine .inr ⟨_, rfl, fun u hu hname => ?_, fun u => ?_⟩
    · by_contra hne
      exact htaken (List.any_eq_true.mpr ⟨u, hu, by simpa using ⟨hname, hne⟩⟩)
    · have hmem := @Table.mem_modify _ _ _ _ s.world.users user.id (fun u => { u with name := new })
        (fun _ => rfl) u
      rw [hget] at hmem
      refine hmem.trans (Or.comm.trans (or_congr_left ?_))
      simp

/-- `create` of the repository layer: it is refused, or the row is there. -/
theorem insertRepository_cases (s : Storage) (id : Uuid) (name : String) (ownerId : Uuid)
    (ownerType : RepositoryOwnerType) (visibility : RepositoryVisibility) (readonly : Bool) :
    (∃ e, s.insertRepository id name ownerId ownerType visibility readonly = (.error e, s)) ∨
    ∃ repositories, s.insertRepository id name ownerId ownerType visibility readonly =
        (.ok ⟨id, name, ownerId, ownerType, visibility, readonly, .empty⟩,
          { s with world := { s.world with repositories := repositories } }) ∧
      (∀ q ∈ s.world.repositories.rows, ¬ (q.ownerId = ownerId ∧ q.name = name)) ∧
      s.world.repositories.insert? ⟨id, name, ownerId, ownerType, visibility, readonly, .empty⟩ =
        some repositories := by
  unfold Storage.insertRepository World.insertRepository
  split_ifs with htaken
  · exact .inl ⟨_, rfl⟩
  cases hinsert : s.world.repositories.insert?
      ⟨id, name, ownerId, ownerType, visibility, readonly, .empty⟩ with
  | none => exact .inl ⟨_, rfl⟩
  | some repositories =>
    refine .inr ⟨_, rfl, fun q hq hpath => ?_, rfl⟩
    exact htaken (List.any_eq_true.mpr ⟨q, hq, by simpa using hpath⟩)

/-- **Users.** A call leaves the users as they are, or gives a free name to one
of them. -/
theorem users_exec (c : SiteCall) (s : Storage) :
    (siteExec c s).2.world.users = s.world.users ∨ ∃ id name, c.userName = some name ∧
      (siteExec c s).1.isOk ∧ Named s.world (siteExec c s).2.world id name := by
  by_cases hdisk : c.onDisk
  · exact .inl (by rw [world_exec hdisk])
  cases c with
  | insertUser id bytes =>
    rcases @named_createUser s.world id bytes with hsame | ⟨hok, hnamed⟩
    · exact .inl (congrArg World.users hsame)
    · exact .inr ⟨id, _, rfl, hok, hnamed⟩
  | updateUser id name =>
    cases name with
    | none =>
      left
      simp only [siteExec, Storage.updateUser]
      split <;> rfl
    | some new =>
      change (s.updateUser id (some new)).2.world.users = _ ∨ ∃ id' name, some new = some name ∧
        (s.updateUser id (some new)).1.isOk ∧ Named s.world (s.updateUser id (some new)).2.world id' name
      rcases updateUser_cases s id new with ⟨e, heq⟩ | ⟨users, heq, hnamed⟩
      · rw [heq]
        exact .inl rfl
      · rw [heq]
        exact .inr ⟨id, new, rfl, rfl, hnamed⟩
  | insertOrganization id owner name =>
    left
    simp only [siteExec, Storage.insertOrganization]
    split_ifs
    · rfl
    · rfl
    · split <;> rfl
  | insertRepository id name ownerId ownerType visibility readonly =>
    left
    simp only [siteExec, Storage.insertRepository]
    split <;> rfl
  | _ => first | exact .inl rfl | exact absurd rfl hdisk

/-- **Organizations.** A call leaves the organizations as they are, or adds one
of a free name. -/
theorem organizations_exec (c : SiteCall) (s : Storage) :
    (siteExec c s).2.world.organizations = s.world.organizations ∨ ∃ id name,
      c.organizationName = some name ∧ (siteExec c s).1.isOk ∧
      (∀ o ∈ s.world.organizations.rows, o.name ≠ name) ∧
      s.world.organizations.insert? ⟨id, name⟩ = some (siteExec c s).2.world.organizations := by
  by_cases hdisk : c.onDisk
  · exact .inl (by rw [world_exec hdisk])
  cases c with
  | insertOrganization id owner name =>
    simp only [siteExec, Storage.insertOrganization]
    split_ifs with htaken
    · exact .inl rfl
    · exact .inl rfl
    cases hinsert : s.world.organizations.insert? ⟨id, name⟩ with
    | none => exact .inl rfl
    | some organizations =>
      have hnone : s.world.getOrganization name = none := by simpa using htaken
      refine .inr ⟨id, name, rfl, rfl, fun o ho => ?_, hinsert⟩
      simpa [World.getOrganization] using List.find?_eq_none.mp hnone o ho
  | insertUser id bytes =>
    left
    simp only [siteExec, World.createUser]
    split_ifs
    · rfl
    · split <;> rfl
  | updateUser id name =>
    left
    simp only [siteExec, Storage.updateUser]
    split
    · rfl
    · split
      · rfl
      · split_ifs <;> rfl
  | insertRepository id name ownerId ownerType visibility readonly =>
    left
    simp only [siteExec, Storage.insertRepository]
    split <;> rfl
  | _ => first | exact .inl rfl | exact absurd rfl hdisk

/-- **Repositories.** A call leaves the repositories as they are, adds one whose
path under its owner is free, or removes one. -/
theorem repositories_exec (c : SiteCall) (s : Storage) :
    (siteExec c s).2.world.repositories = s.world.repositories ∨
    (∃ r : Repository, c = .insertRepository r.id r.name r.ownerId r.ownerType r.visibility r.readonly ∧
      (siteExec c s).1.isOk ∧
      (∀ q ∈ s.world.repositories.rows, ¬ (q.ownerId = r.ownerId ∧ q.name = r.name)) ∧
      s.world.repositories.insert? r = some (siteExec c s).2.world.repositories) ∨
    ∃ id, c = .deleteRow id ∧
      (siteExec c s).2.world.repositories = s.world.repositories.erase id := by
  by_cases hdisk : c.onDisk
  · exact .inl (by rw [world_exec hdisk])
  cases c with
  | insertRepository id name ownerId ownerType visibility readonly =>
    simp only [siteExec]
    rcases insertRepository_cases s id name ownerId ownerType visibility readonly with
      ⟨e, heq⟩ | ⟨repositories, heq, hfree, hinsert⟩
    · rw [heq]
      exact .inl rfl
    · rw [heq]
      exact .inr (.inl ⟨_, rfl, rfl, hfree, hinsert⟩)
  | deleteRow id => exact .inr (.inr ⟨id, rfl, rfl⟩)
  | insertUser id bytes =>
    left
    simp only [siteExec, World.createUser]
    split_ifs
    · rfl
    · split <;> rfl
  | updateUser id name =>
    left
    simp only [siteExec, Storage.updateUser]
    split
    · rfl
    · split
      · rfl
      · split_ifs <;> rfl
  | insertOrganization id owner name =>
    left
    simp only [siteExec, Storage.insertOrganization]
    split_ifs
    · rfl
    · rfl
    · split <;> rfl
  | _ => first | exact .inl rfl | exact absurd rfl hdisk

theorem Named.unique {s t : World} {id : Uuid} {name : String} (h : Named s t id name)
    (hs : ∀ u ∈ s.users.rows, ∀ v ∈ s.users.rows, u.name = v.name → u = v) :
    ∀ u ∈ t.users.rows, ∀ v ∈ t.users.rows, u.name = v.name → u = v := by
  intro u hu v hv hname
  rcases (h.rows u).mp hu with rfl | ⟨hu, hun⟩ <;> rcases (h.rows v).mp hv with rfl | ⟨hv, hvn⟩
  · rfl
  · exact absurd (h.free v hv hname.symm) hvn
  · exact absurd (h.free u hu hname) hun
  · exact hs u hu v hv hname

/-- **The unique indexes.** Every call keeps them. -/
theorem unique_exec (c : SiteCall) (h : s.world.Unique) : (siteExec c s).2.world.Unique := by
  refine ⟨?_, ?_, ?_⟩
  · rcases users_exec c s with hsame | ⟨id, name, -, -, hnamed⟩
    · rw [hsame]
      exact h.user
    · exact hnamed.unique h.user
  · rcases organizations_exec c s with hsame | ⟨id, name, -, -, hfree, hinsert⟩
    · rw [hsame]
      exact h.organization
    · intro o ho p hp hname
      rcases (Table.mem_insert? hinsert).mp ho with rfl | ho <;>
        rcases (Table.mem_insert? hinsert).mp hp with rfl | hp
      · rfl
      · exact absurd hname.symm (hfree p hp)
      · exact absurd hname (hfree o ho)
      · exact h.organization o ho p hp hname
  · rcases repositories_exec c s with hsame | ⟨r, -, -, hfree, hinsert⟩ | ⟨id, -, herase⟩
    · rw [hsame]
      exact h.repository
    · intro q hq q' hq' howner hname
      rcases (Table.mem_insert? hinsert).mp hq with rfl | hq <;>
        rcases (Table.mem_insert? hinsert).mp hq' with rfl | hq'
      · rfl
      · exact absurd ⟨howner.symm, hname.symm⟩ (hfree q' hq')
      · exact absurd ⟨howner, hname⟩ (hfree q hq)
      · exact h.repository q hq q' hq' howner hname
    · rw [herase]
      intro q hq q' hq' howner hname
      exact h.repository q (Table.mem_erase.mp hq).1 q' (Table.mem_erase.mp hq').1 howner hname

end Exec

/-! ### The checks -/

/-- The check of a rename: what it says of the organizations. -/
def noOrganization (name : String) : Check siteHandler undisturbed where
  passed
    | ⟨.isNameTaken n, .ok false⟩ => decide (n = name)
    | _ => false
  holds s := ∀ o ∈ s.world.organizations.rows, o.name ≠ name
  breaks c s := c.organizationName = some name ∧ (siteExec c s).1.isOk
  not_passed c e := by cases c <;> rfl
  of_passed c s a hpassed hexec := by
    cases c with
    | isNameTaken n =>
      cases a with
      | true => cases hpassed
      | false =>
        obtain rfl : n = name := of_decide_eq_true hpassed
        have hfree : s.world.isNameTaken n = false := Except.ok.inj hexec
        intro o ho
        have hnone : s.world.getOrganization n = none := by
          simpa [World.isNameTaken] using (Bool.or_eq_false_iff.mp hfree).2
        simpa [World.getOrganization] using List.find?_eq_none.mp hnone o ho
    | _ => cases hpassed
  of_breaks c s hs := by
    rcases organizations_exec c s with hsame | ⟨id, n, hn, hok, -, hinsert⟩
    · left
      show ∀ o ∈ (siteExec c s).2.world.organizations.rows, o.name ≠ name
      rw [hsame]
      exact hs
    · rcases eq_or_ne n name with rfl | hne
      · exact .inr ⟨hn, hok⟩
      · left
        intro o ho
        rcases (Table.mem_insert? hinsert).mp ho with rfl | ho
        · exact hne
        · exact hs o ho
  of_env e := nomatch e

/-- The check of a new organization: what it says of the users. -/
def noUser (name : String) : Check siteHandler undisturbed where
  passed
    | ⟨.getUser n, .ok none⟩ => decide (n = name)
    | _ => false
  holds s := ∀ u ∈ s.world.users.rows, u.name ≠ name
  breaks c s := c.userName = some name ∧ (siteExec c s).1.isOk
  not_passed c e := by cases c <;> rfl
  of_passed c s a hpassed hexec := by
    cases c with
    | getUser n =>
      cases a with
      | some user => cases hpassed
      | none =>
        obtain rfl : n = name := of_decide_eq_true hpassed
        have hnone : s.world.getUser n = none := Except.ok.inj hexec
        intro u hu
        simpa [World.getUser] using List.find?_eq_none.mp hnone u hu
    | _ => cases hpassed
  of_breaks c s hs := by
    rcases users_exec c s with hsame | ⟨id, n, hn, hok, hnamed⟩
    · left
      show ∀ u ∈ (siteExec c s).2.world.users.rows, u.name ≠ name
      rw [hsame]
      exact hs
    · rcases eq_or_ne n name with rfl | hne
      · exact .inr ⟨hn, hok⟩
      · left
        intro u hu
        rcases (hnamed.rows u).mp hu with rfl | ⟨hu, -⟩
        · exact hne
        · exact hs u hu
  of_env e := nomatch e

instance (name : String) (c : SiteCall) (s : Storage) : Decidable ((noOrganization name).breaks c s) :=
  inferInstanceAs (Decidable (_ ∧ _))

instance (name : String) (c : SiteCall) (s : Storage) : Decidable ((noUser name).breaks c s) :=
  inferInstanceAs (Decidable (_ ∧ _))

/-- A call that writes a name writes none that has gone to the other table: a
handle that is drawn is no organization's, and since it was checked, no other
call has given the name away. -/
def FreshName (P : SitePool) (caller : Caller SiteOp) : SiteCall → Prop
  | .insertUser _ bytes =>
    ∀ o ∈ P.sys.store.world.organizations.rows, o.name ≠ World.handle bytes
  | .updateUser _ (some name) => ∀ m ∈ since caller.number (noOrganization name).passed P.sys.log,
      ¬ (noOrganization name).breaks m.call m.before
  | .insertOrganization _ _ name => ∀ m ∈ since caller.number (noUser name).passed P.sys.log,
      ¬ (noUser name).breaks m.call m.before
  | _ => True

instance (P : SitePool) (caller : Caller SiteOp) : (c : SiteCall) → Decidable (FreshName P caller c)
  | .insertUser _ _ => inferInstanceAs (Decidable (∀ o ∈ _, _))
  | .updateUser _ (some _) => inferInstanceAs (Decidable (∀ m ∈ _, _))
  | .insertOrganization _ _ _ => inferInstanceAs (Decidable (∀ m ∈ _, _))
  | .updateUser _ none | .isNameTaken _ | .getUserById _ | .renameOwner _ _ | .getOrganization _
  | .getUser _ | .verifyAuthorizedForRepositoryCreation _ | .repoExists _ _ | .createRepo _ _ _
  | .emptyHooks _ _ | .installHook _ _ _ | .insertRepository _ _ _ _ _ _
  | .createInitialCommit _ _ _ | .verifyAuthorizedForRepository _ | .getRepository _ _
  | .deleteRow _ | .deleteRepo _ _ | .mirrorRepo _ _ _ => instDecidableTrue

/-- The names that are written are fresh. -/
abbrev Fresh : SitePool → SiteMove → Prop := OnCalls FreshName

/-! ### What is checked before a name is written -/

section Protocol

variable {names : Names} {seen : List SiteEvent}

/-- A name is written only after the other table was checked. -/
def Checks (seen : List SiteEvent) : SiteCall → Prop
  | .updateUser _ (some name) => ⟨.isNameTaken name, .ok false⟩ ∈ seen
  | .insertOrganization _ _ name => ⟨.getUser name, .ok none⟩ ∈ seen
  | _ => True

/-- The call needs no check. -/
def Unchecked (c : SiteCall) : Prop := ∀ seen, Checks seen c

abbrev ObeysChecks (seen : List SiteEvent) (p : SiteProg Unit) : Prop :=
  Obeys Checks (fun _ _ => True) seen p

theorem obeys_of_unchecked {p : SiteProg Unit} (h : Calls Unchecked p) : ObeysChecks seen p :=
  h.obeys (fun seen _ hc => hc seen) fun _ _ => trivial

theorem calls_installHooks {owner repo : String} : Calls Unchecked (installHooks owner repo) :=
  calls_bind (fun _ => calls_bind (fun _ => calls_perform fun _ => trivial)
    (calls_perform fun _ => trivial)) (calls_perform fun _ => trivial)

theorem calls_orDeleteRepo {owner repo : String} : ∀ {p : SiteProg Unit}, Calls Unchecked p →
    Calls Unchecked (orDeleteRepo owner repo p)
  | .ret _, _ => trivial
  | .fail _, _ => ⟨fun _ => trivial, fun _ => trivial⟩
  | .call _ _, h => ⟨h.1, fun r => calls_orDeleteRepo (h.2 r)⟩

theorem calls_createUser : ∀ {draws : List HandleDraw} {draw : HandleDraw},
    Calls Unchecked (createUser draw draws)
  | [], draw => calls_bind (fun _ => calls_pure) (calls_perform fun _ => trivial)
  | next :: draws, draw => by
    refine ⟨fun _ => trivial, fun r => ?_⟩
    cases r with
    | ok user => trivial
    | error e =>
      cases e with
      | database e =>
        cases e with
        | uniqueViolation => exact calls_createUser
        | _ => trivial
      | _ => trivial

theorem calls_initialCommit {request : CreateRepositoryRequest} :
    Calls Unchecked (initialCommit request) := by
  refine calls_ite ⟨fun _ => trivial, fun r => ?_⟩ trivial
  cases r with
  | ok a => trivial
  | error e => exact ⟨fun _ => trivial, fun _ => ⟨fun _ => trivial, fun _ => trivial⟩⟩

theorem calls_makeRepository {request : CreateRepositoryRequest} {ownerId : Uuid} :
    Calls Unchecked (makeRepository request ownerId) := by
  refine calls_bind (fun _ => calls_bind (fun _ => ?_) calls_installHooks)
    (calls_perform fun _ => trivial)
  refine ⟨fun _ => trivial, fun r => ?_⟩
  cases r with
  | ok a => exact calls_initialCommit
  | error e => exact ⟨fun _ => trivial, fun _ => trivial⟩

theorem calls_createRepository {request : CreateRepositoryRequest} :
    Calls Unchecked (createRepository names request) := by
  refine calls_bind (fun authorized => ?_) (calls_perform fun _ => trivial)
  cases authorized with
  | error e => trivial
  | ok a =>
    refine calls_ite trivial ⟨fun _ => trivial, fun answer => calls_ite trivial ?_⟩
    refine calls_bind (fun _ => calls_makeRepository) ?_
    unfold ownerOf
    cases request.ownerType with
    | user => trivial
    | organization =>
      refine calls_bind (fun organization => ?_) (calls_perform fun _ => trivial)
      cases organization <;> trivial

theorem calls_deleteRepository {caller : Uuid} {owner repo : String} :
    Calls Unchecked (deleteRepository caller owner repo) := by
  refine calls_bind (fun authorized => ?_) (calls_perform fun _ => trivial)
  cases authorized with
  | error e => trivial
  | ok a =>
    refine calls_bind (fun found => ?_) (calls_perform fun _ => trivial)
    cases found with
    | none => trivial
    | some repository =>
      exact calls_bind (fun _ => calls_perform fun _ => trivial) (calls_perform fun _ => trivial)

theorem calls_migrateSingleRepository {request : MigrationRequest} :
    Calls Unchecked (migrateSingleRepository request) := by
  refine calls_bind (fun found => ?_) (calls_perform fun _ => trivial)
  refine calls_ite trivial (calls_bind (fun _ => calls_orDeleteRepo ?_) (calls_perform fun _ => trivial))
  exact calls_bind (fun _ => calls_bind (fun _ => calls_bind (fun _ => calls_pure)
    (calls_perform fun _ => trivial)) calls_installHooks) (calls_perform fun _ => trivial)

theorem obeys_updateCurrentUser {caller : Uuid} {name : Option String} :
    ObeysChecks seen (updateCurrentUser names caller name) := by
  -- what is known of the rename that is asked for
  refine obeys_bind (R := fun seen rename => ∀ old new, rename = .ok (some (old, new)) →
    ⟨.isNameTaken new, .ok false⟩ ∈ seen) (fun seen rename hrename => ?_) (fun _ _ _ => trivial) ?_
  · cases rename with
    | none => exact ⟨trivial, fun r => by cases r <;> trivial⟩
    | some names =>
      obtain ⟨old, new⟩ := names
      have hchecked := hrename old new rfl
      refine obeys_perform_bind trivial (fun _ => trivial) fun _ => ?_
      refine ⟨List.mem_cons_of_mem _ hchecked, fun r => ?_⟩
      cases r with
      | ok a => trivial
      | error e => exact ⟨trivial, fun _ => trivial⟩
  · cases name with
    | none => exact nofun
    | some new =>
      refine obeys_ite (fun _ => nofun) fun _ => ?_
      refine obeys_perform_bind trivial (fun _ => nofun) fun taken => ?_
      cases taken with
      | true => exact nofun
      | false =>
        refine obeys_perform_bind trivial (fun _ => nofun) fun found => ?_
        cases found with
        | none => exact nofun
        | some user =>
          refine obeys_pure fun old new' heq => ?_
          split_ifs at heq
          · cases heq
          · obtain ⟨-, rfl⟩ := Prod.mk.inj (Option.some.inj (Except.ok.inj heq))
            exact List.mem_cons_of_mem _ List.mem_cons_self

theorem obeys_createOrganization {id caller : Uuid} {orgName : String} :
    ObeysChecks seen (createOrganization names id caller orgName) := by
  refine obeys_ite (fun _ => trivial) fun _ => ?_
  refine obeys_perform_bind trivial (fun _ => trivial) fun organization => ?_
  refine obeys_ite (fun _ => trivial) fun _ => ?_
  refine obeys_perform_bind trivial (fun _ => trivial) fun user => ?_
  cases user with
  | some user => trivial
  | none => exact obeys_perform_bind List.mem_cons_self (fun _ => trivial) fun _ => trivial

/-- **Protocol.** Every request checks a name in the other table before it
writes it. -/
theorem obeys_siteProgram (op : SiteOp) : ObeysChecks [] (siteProgram names op) := by
  cases op with
  | signUp first second third => exact obeys_of_unchecked calls_createUser
  | updateCurrentUser caller name => exact obeys_updateCurrentUser
  | createOrganization id caller orgName => exact obeys_createOrganization
  | createRepository request => exact obeys_of_unchecked calls_createRepository
  | deleteRepository caller owner repo => exact obeys_of_unchecked calls_deleteRepository
  | migrateSingleRepository request => exact obeys_of_unchecked calls_migrateSingleRepository

end Protocol

/-! ### Runs -/

/-- The unique indexes hold, and no user shares a name with an organization. -/
structure OneOwner (w : World) : Prop where
  unique : w.Unique
  apart : ∀ name, ¬ w.SharedName name

/-- A name has one row at most, and a path one repository. -/
def OneEach (w : World) : Prop :=
  (∀ name, (w.ownerIds name).length ≤ 1) ∧ ∀ owner repo, (w.repositoriesAt owner repo).length ≤ 1

/-- Before the first request. -/
def Started (P : SitePool) : Prop :=
  P.sys.log = [] ∧ P.threads = [] ∧ OneOwner P.sys.store.world

section Runs

variable {names : Names} {P : SitePool} {n : ℕ} {op : SiteOp} {c : SiteCall}

/-- What the requests are known to do in a run. -/
structure Checking (P : SitePool) : Prop where
  obeyed : Obeyed (fun _ => Checks) (fun _ _ _ => True) P
  organizations : ∀ name, Checked (noOrganization name) P
  users : ∀ name, Checked (noUser name) P

/-- A name that goes to a user is no organization's. -/
theorem Checking.no_organization {k : Except AppError (SiteResp c) → SiteProg Unit} {name : String}
    (hP : Checking P) (hn : P.threads[n]? = some ⟨op, .call c k⟩) (hfresh : FreshName P ⟨n, op⟩ c)
    (hname : c.userName = some name) : ∀ o ∈ P.sys.store.world.organizations.rows, o.name ≠ name := by
  cases c with
  | insertUser id bytes =>
    obtain rfl := Option.some.inj hname
    exact hfresh
  | updateUser id new =>
    obtain rfl : new = some name := hname
    have hseen : ⟨.isNameTaken name, .ok false⟩ ∈ seen n P.sys.log := (hP.obeyed.rests n _ hn).1
    exact (hP.organizations name).holds_of_not_broken hseen (decide_eq_true rfl) hfresh
  | _ => cases hname

/-- A name that goes to an organization is no user's. -/
theorem Checking.no_user {k : Except AppError (SiteResp c) → SiteProg Unit} {name : String}
    (hP : Checking P) (hn : P.threads[n]? = some ⟨op, .call c k⟩) (hfresh : FreshName P ⟨n, op⟩ c)
    (hname : c.organizationName = some name) : ∀ u ∈ P.sys.store.world.users.rows, u.name ≠ name := by
  cases c with
  | insertOrganization id owner new =>
    obtain rfl := Option.some.inj hname
    have hseen : ⟨.getUser new, .ok none⟩ ∈ seen n P.sys.log := (hP.obeyed.rests n _ hn).1
    exact (hP.users new).holds_of_not_broken hseen (decide_eq_true rfl) hfresh
  | _ => cases hname

/-- One call. -/
theorem one_exec {s : Storage} (hs : OneOwner s.world)
    (horganization : ∀ name, c.userName = some name → ∀ o ∈ s.world.organizations.rows, o.name ≠ name)
    (huser : ∀ name, c.organizationName = some name → ∀ u ∈ s.world.users.rows, u.name ≠ name) :
    OneOwner (siteExec c s).2.world := by
  refine ⟨unique_exec c hs.unique, ?_⟩
  rintro shared ⟨⟨u, hu, rfl⟩, o, ho, hname⟩
  rcases users_exec c s with husers | ⟨id, name, hc, -, hnamed⟩ <;>
    rcases organizations_exec c s with horgs | ⟨id', name', hc', -, -, hinsert⟩
  · rw [husers] at hu
    rw [horgs] at ho
    exact hs.apart _ ⟨⟨u, hu, rfl⟩, o, ho, hname⟩
  · rw [husers] at hu
    rcases (Table.mem_insert? hinsert).mp ho with rfl | ho
    · exact huser name' hc' u hu hname.symm
    · exact hs.apart _ ⟨⟨u, hu, rfl⟩, o, ho, hname⟩
  · rw [horgs] at ho
    rcases (hnamed.rows u).mp hu with rfl | ⟨hu, -⟩
    · exact horganization name hc o ho hname
    · exact hs.apart _ ⟨⟨u, hu, rfl⟩, o, ho, hname⟩
  · rw [organizationName_of_userName hc] at hc'
    cases hc'

/-- **One move.** -/
theorem one_next {m : SiteMove} (hP : Checking P) (hg : Fresh P m) (hone : OneOwner P.sys.store.world) :
    OneOwner (siteNext names m P).sys.store.world := by
  cases m with
  | start op => exact hone
  | step n fate =>
    rcases atCall_or_done P n with ⟨op, c, k, hn⟩ | hdone
    · have hfresh := hg.of_thread hn
      rw [show siteNext names (.step n fate) P = _ from next_step hn]
      exact perform_keeps (P := fun s : Storage => OneOwner s.world) hone
        (one_exec hone (fun _ => hP.no_organization hn hfresh) fun _ => hP.no_user hn hfresh)
    · rw [show siteNext names (.step n fate) P = P from hdone fate]
      exact hone
  | env e => cases e

theorem length_le_one_of_eq {α : Type} {l : List α} (hl : l.Nodup) (heq : ∀ a ∈ l, ∀ b ∈ l, a = b) :
    l.length ≤ 1 := by
  cases l with
  | nil => exact Nat.zero_le _
  | cons a l =>
    cases l with
    | nil => exact Nat.le_refl _
    | cons b l =>
      obtain rfl := heq a (by simp) b (by simp)
      simp at hl

/-- One owner for a name is one row for it, and one repository at a path. -/
theorem OneOwner.oneEach {w : World} (h : OneOwner w) : OneEach w := by
  refine ⟨fun name => ?_, fun owner repo => ?_⟩
  · have husers : (w.users.rows.filter fun u => decide (u.name = name)).length ≤ 1 := by
      refine length_le_one_of_eq ((List.Nodup.of_map _ w.users.nodup_keys).filter _) fun u hu v hv => ?_
      obtain ⟨hu, hun⟩ := List.mem_filter.mp hu
      obtain ⟨hv, hvn⟩ := List.mem_filter.mp hv
      exact h.unique.user u hu v hv ((of_decide_eq_true hun).trans (of_decide_eq_true hvn).symm)
    have horgs : (w.organizations.rows.filter fun o => decide (o.name = name)).length ≤ 1 := by
      refine length_le_one_of_eq ((List.Nodup.of_map _ w.organizations.nodup_keys).filter _)
        fun o ho p hp => ?_
      obtain ⟨ho, hon⟩ := List.mem_filter.mp ho
      obtain ⟨hp, hpn⟩ := List.mem_filter.mp hp
      exact h.unique.organization o ho p hp
        ((of_decide_eq_true hon).trans (of_decide_eq_true hpn).symm)
    have hapart : (w.users.rows.filter fun u => decide (u.name = name)) = [] ∨
        (w.organizations.rows.filter fun o => decide (o.name = name)) = [] := by
      by_contra hboth
      obtain ⟨hu, ho⟩ := not_or.mp hboth
      obtain ⟨u, hu⟩ := List.exists_mem_of_ne_nil _ hu
      obtain ⟨o, ho⟩ := List.exists_mem_of_ne_nil _ ho
      obtain ⟨hu, hun⟩ := List.mem_filter.mp hu
      obtain ⟨ho, hon⟩ := List.mem_filter.mp ho
      exact h.apart name ⟨⟨u, hu, of_decide_eq_true hun⟩, o, ho, of_decide_eq_true hon⟩
    rw [World.ownerIds, List.length_append, List.length_map, List.length_map]
    rcases hapart with hnil | hnil
    · rw [hnil]
      simpa using horgs
    · rw [hnil]
      simpa using husers
  · refine length_le_one_of_eq ?_ fun r hr q hq => h.unique.repositoryAt (h.apart owner) hr hq
    exact (List.Nodup.of_map _ w.repositories.nodup_keys).filter _

/-- **One owner.** In a run whose names are fresh when they are written, a name
has one row in both tables together, and a path leads to one repository. -/
theorem handles_one_owner (hrun : Reach Started (siteNext names) Fresh P) :
    OneEach P.sys.store.world := by
  have hempty : ∀ P : SitePool, Started P → P.sys.log = [] ∧ P.threads = [] := fun P hP =>
    ⟨hP.1, hP.2.1⟩
  have hchecking : ∀ {P : SitePool}, Reach Started (siteNext names) Fresh P → Checking P := fun hrun =>
    ⟨obeyed_run hempty obeys_siteProgram hrun, fun _ => checked_run (fun P hP => hP.1) hrun,
      fun _ => checked_run (fun P hP => hP.1) hrun⟩
  have hone : OneOwner P.sys.store.world := by
    induction hrun with
    | start hP => exact hP.2.2
    | next m hrun hg ih => exact one_next (hchecking hrun) hg ih
  exact hone.oneEach

end Runs

/-! ### A rename and a new organization -/

def anyName : Names := ⟨fun _ => true, fun _ => false⟩

def emptySite : SitePool := ⟨⟨⟨emptyWorld, fun _ => none⟩, []⟩, []⟩

/-- A request served from start to end by itself, in at most `calls` calls. -/
def served (number calls : ℕ) (op : SiteOp) : List SiteMove :=
  .start op :: List.replicate calls (.step number .answered)

/-- Two users have signed up. The first asks for the name acme, and the second
makes an organization of this name after it was found free. -/
def acmeTwice : List SiteMove :=
  served 0 1 (.signUp ⟨1, 1⟩ ⟨2, 2⟩ ⟨3, 3⟩) ++ served 1 1 (.signUp ⟨4, 4⟩ ⟨5, 5⟩ ⟨6, 6⟩) ++
    [.start (.updateCurrentUser 1 (some "acme")), .step 2 .answered] ++
    served 3 3 (.createOrganization 7 4 "acme") ++ List.replicate 3 (.step 2 .answered)

/-- The site before the first request has one owner for each name. -/
theorem started_emptySite : Started emptySite :=
  ⟨rfl, rfl, ⟨⟨by decide, by decide, by decide⟩, fun name h => by simp [World.SharedName, emptySite,
    emptyWorld, Table.empty] at h⟩⟩

/-- The name acme is a user's and an organization's then. -/
theorem acme_has_two_owners : ∃ P, Reach Started (siteNext anyName) (fun _ _ => True) P ∧
    (P.threads.all fun t => !t.inFlight) ∧ P.sys.store.world.ownerIds "acme" = [1, 7] ∧
    ¬ OneEach P.sys.store.world := by
  have hids : (play (siteNext anyName) acmeTwice emptySite).sys.store.world.ownerIds "acme" = [1, 7] := by
    decide +kernel
  have hreach : Reach Started (siteNext anyName) (fun _ _ => True)
      (play (siteNext anyName) acmeTwice emptySite) :=
    reach_play (.start started_emptySite) guarded_true
  refine ⟨_, hreach, by decide +kernel, hids, fun h => ?_⟩
  have hone := h.1 "acme"
  rw [hids] at hone
  exact absurd hone (by decide)

/-- The same requests, the organization made before the name is checked. -/
def acmeOnce : List SiteMove :=
  served 0 1 (.signUp ⟨1, 1⟩ ⟨2, 2⟩ ⟨3, 3⟩) ++ served 1 1 (.signUp ⟨4, 4⟩ ⟨5, 5⟩ ⟨6, 6⟩) ++
    served 2 3 (.createOrganization 7 4 "acme") ++ served 3 4 (.updateCurrentUser 1 (some "acme")) ++
    served 4 4 (.updateCurrentUser 1 (some "ada"))

theorem handles_one_owner_acmeOnce : ∃ P : SitePool, P.sys.store.world.ownerIds "acme" = [7] ∧
    P.sys.store.world.ownerIds "ada" = [1] ∧ OneEach P.sys.store.world := by
  refine ⟨play (siteNext anyName) acmeOnce emptySite, by decide +kernel, by decide +kernel,
    handles_one_owner (reach_play (.start started_emptySite) (by decide +kernel))⟩

end Site
end Gitdot
