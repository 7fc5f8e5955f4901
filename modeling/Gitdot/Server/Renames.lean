/-
# A rename moves its own repositories

`update_current_user` moves the directory of the user, writes the row, and moves
the directory back if the row is refused; a directory that is missing counts as
moved. Two renames to one name can both get as far as the row, and the one that
is refused then moves the other's directory. A repository that is made under a
name that its owner has just given up stays behind, and a clean-up removes what
is at the path, whoever made it.

In a run whose calls are in order (`Orderly`) every repository has its git
directory under the name of its owner whenever no request is under way
(`renames_move_own`). The order asks of each call that what it relies on still
holds: that a name is still the caller's and no other rename under way is from or
to it, that there is no directory where one is to be made, and that what is
removed is one's own.

Key definitions: `Still`, `OrderlyCall`, `Orderly`, `Sited`, `Located`.
Key theorems: `home_step`, `ids_step`, `Sited.step`, `sited_run`,
`renames_move_own`.
-/
import Gitdot.Server.Motions

namespace Gitdot
namespace Site

open Lib Prog Keyed

/-! ### Calls in order -/

/-- A repository has the id, or has had it. -/
def Known (P : SitePool) (id : Uuid) : Prop :=
  (∃ r ∈ P.sys.store.world.repositories.rows, r.id = id) ∨
    ∃ m ∈ P.sys.log, ∃ r ∈ m.before.world.repositories.rows, r.id = id

/-- No rename under way has moved a directory from or to the name. -/
def Still (P : SitePool) (name : String) : Prop :=
  ∀ n < P.threads.length, ∀ x ∈ moved (seen n P.sys.log), x.1 ≠ name ∧ x.2 ≠ name

/-- The caller has the name that it gives up. -/
def HasName (w : World) : SiteOp → String → Prop
  | .updateCurrentUser id _, old => nameOf w .user id = some old
  | _, _ => True

/-- The owner of the repository that a request makes has the name that the request
has it under. -/
def OwnerNow (w : World) : SiteOp → Prop
  | .createRepository r => r.ownerType = .user → nameOf w .user r.userId = some r.owner
  | .migrateSingleRepository r => nameOf w r.ownerType r.ownerId = some r.ownerName
  | _ => True

/-- The git directory is that of the repository that the request makes, or has
found. -/
def Mine (op : SiteOp) (seen : List SiteEvent) (d : GitDirectory) : Prop :=
  match planned op with
  | some p => d.madeFor = p.id
  | none => (found seen).map Repository.id = some d.madeFor

/-- **The order that is asked for.** A directory is moved while its user has the name, nobody has
taken the new one or there is something to move, and no other rename is under way from or to either
of them; a repository is made while its owner has the name, under no rename of it, where there is no
directory; a directory that is removed is the request's own. What has had its effect is not answered
with an error where that matters, and what takes an effect back has its own. -/
def OrderlyCall (P : SitePool) (caller : Caller SiteOp) (fate : Fate) : SiteCall → Prop
  | .renameOwner old new =>
    if moved (seen caller.number P.sys.log) = none then
      fate = .refused ∨ P.sys.store.dirs.renameOwner old new = none ∨
        fate = .answered ∧ HasName P.sys.store.world caller.op old ∧ Still P old ∧ Still P new ∧
          ((P.sys.store.dirs old).isSome ∨ P.sys.store.world.isNameTaken new = false)
    else fate ≠ .refused
  | .updateUser _ (some _) | .insertRepository .. => fate ≠ .lost
  | .createRepo owner repo _ => fate = .refused ∨ P.sys.store.dirs.find owner repo = none ∧
    OwnerNow P.sys.store.world caller.op ∧ Still P owner
  | .mirrorRepo owner repo _ => fate = .refused ∨ (P.sys.store.dirs.find owner repo).isSome ∨
    OwnerNow P.sys.store.world caller.op ∧ Still P owner
  | .deleteRow _ => fate ≠ .refused
  | .deleteRepo owner repo => fate = .refused ∨ (planned caller.op = none → fate = .answered) ∧
    ∀ d ∈ P.sys.store.dirs.find owner repo, Mine caller.op (seen caller.number P.sys.log) d
  | _ => True

/-- The requests are renames, and requests that make, migrate and delete repositories, under ids that
are new; and their calls come in that order. -/
def Orderly (P : SitePool) : SiteMove → Prop
  | .start op => op.keepsOwners = true ∧ ∀ p ∈ planned op, ¬ Known P p.id ∧
    ∀ t ∈ P.threads, ∀ p' ∈ planned t.op, p'.id ≠ p.id
  | .step n fate => ∀ x ∈ P.calling (.step n fate : SiteMove), OrderlyCall P x.1 fate x.2
  | .env _ => True

section Decidable

instance (P : SitePool) (id : Uuid) : Decidable (Known P id) := inferInstanceAs (Decidable (_ ∨ _))

instance (P : SitePool) (name : String) : Decidable (Still P name) :=
  inferInstanceAs (Decidable (∀ n < P.threads.length, ∀ x ∈ moved (seen n P.sys.log), _))

instance (w : World) : (op : SiteOp) → (old : String) → Decidable (HasName w op old)
  | .updateCurrentUser _ _, _ => inferInstanceAs (Decidable (_ = _))
  | .signUp .., _ | .createOrganization .., _ | .createRepository _, _ | .deleteRepository .., _
  | .migrateSingleRepository _, _ => instDecidableTrue

instance (w : World) : (op : SiteOp) → Decidable (OwnerNow w op)
  | .createRepository _ => inferInstanceAs (Decidable (_ → _))
  | .migrateSingleRepository _ => inferInstanceAs (Decidable (_ = _))
  | .signUp .. | .createOrganization .. | .updateCurrentUser .. | .deleteRepository .. =>
    instDecidableTrue

instance (op : SiteOp) (seen : List SiteEvent) (d : GitDirectory) : Decidable (Mine op seen d) :=
  match h : planned op with
  | some p => decidable_of_iff (d.madeFor = p.id) (by unfold Mine; rw [h])
  | none => decidable_of_iff ((found seen).map Repository.id = some d.madeFor)
      (by unfold Mine; rw [h])

instance (P : SitePool) (caller : Caller SiteOp) (fate : Fate) :
    (c : SiteCall) → Decidable (OrderlyCall P caller fate c)
  | .renameOwner _ _ =>
    inferInstanceAs (Decidable (if moved (seen caller.number P.sys.log) = none then _ else _))
  | .updateUser _ (some _) | .insertRepository .. => inferInstanceAs (Decidable (_ ≠ _))
  | .createRepo .. | .mirrorRepo .. => inferInstanceAs (Decidable (_ ∨ _))
  | .deleteRow _ => inferInstanceAs (Decidable (_ ≠ _))
  | .deleteRepo .. => inferInstanceAs (Decidable (_ ∨ _))
  | .updateUser _ none | .insertUser .. | .isNameTaken _ | .getUserById _ | .getOrganization _
  | .getUser _ | .insertOrganization .. | .verifyAuthorizedForRepositoryCreation _ | .repoExists ..
  | .emptyHooks .. | .installHook .. | .createInitialCommit .. | .verifyAuthorizedForRepository _
  | .getRepository .. => instDecidableTrue

instance (P : SitePool) : (m : SiteMove) → Decidable (Orderly P m)
  | .start _ => inferInstanceAs (Decidable (_ ∧ _))
  | .step _ _ => inferInstanceAs (Decidable (∀ x ∈ _, _))
  | .env _ => instDecidableTrue

end Decidable

/-! ### Runs -/

/-- The organizations that requests have found are there. -/
def Organizations (w : World) (q : Requests) : Prop :=
  ∀ n r seen o, q n = some (.createRepository r, seen) → foundOrganization seen = some o →
    o ∈ w.organizations.rows ∧ o.name = r.owner

/-- What holds in a run whose calls are in order. -/
structure Sited (P : SitePool) : Prop where
  obeyed : Obeyed Steps (fun op seen r => op.keepsOwners = true → Ends op seen r) P
  checking : Checking P
  keeps : ∀ (n : ℕ) t, P.threads[n]? = some t → t.op.keepsOwners = true
  one : OneOwner P.sys.store.world
  organizations : Organizations P.sys.store.world (requests P)
  ids : Ids P.sys.store (requests P) (Known P)
  home : Home P.sys.store (requests P)

section Runs

variable {names : Names} {P : SitePool} {n : ℕ} {op : SiteOp} {c : SiteCall} {fate : Fate}
  {k : Except AppError (SiteResp c) → SiteProg Unit}

theorem requests_of_thread {rest : SiteProg Unit} (hn : P.threads[n]? = some ⟨op, rest⟩) :
    requests P n = some (op, seen n P.sys.log) := by
  unfold requests
  rw [hn]
  rfl

theorem exists_thread {x : SiteOp × List SiteEvent} (h : requests P n = some x) :
    ∃ t, P.threads[n]? = some t ∧ x = (t.op, seen n P.sys.log) := by
  obtain ⟨t, ht, rfl⟩ := Option.map_eq_some_iff.mp h
  exact ⟨t, ht, rfl⟩

/-- The requests after a call. -/
theorem requests_step (hn : P.threads[n]? = some ⟨op, .call c k⟩) :
    requests (siteNext names (.step n fate) P) =
      answered P.sys ⟨n, op⟩ c fate (requests P) n op (seen n P.sys.log) := by
  rw [show siteNext names (.step n fate) P = _ from next_step hn]
  funext j
  unfold requests answered
  rw [perform_log]
  rcases eq_or_ne j n with rfl | hne
  · rw [(getElem?_step hn).mpr (.inl ⟨rfl, rfl⟩), Function.update_self, Option.map_some]
    exact congrArg (fun l => some (op, l)) (seen_cons_self (m := ⟨⟨j, op⟩, _, _, _⟩))
  · rw [Function.update_of_ne hne]
    have hsame : (P.threads.set n ⟨op, k (P.sys.perform siteHandler ⟨n, op⟩ c fate).1⟩)[j]? =
        P.threads[j]? := List.getElem?_set_ne hne.symm
    rw [hsame, seen_cons_ne hne.symm]

/-- The requests after one has arrived. -/
theorem requests_start (hP : Sited P) :
    requests (siteNext names (.start op) P) =
      Function.update (requests P) P.threads.length (some (op, [])) := by
  funext j
  change ((P.threads ++ [⟨op, siteProgram names op⟩])[j]?).map (fun t => (t.op, seen j P.sys.log)) = _
  rcases eq_or_ne j P.threads.length with rfl | hne
  · rw [Function.update_self, getElem?_start.mpr (.inr ⟨rfl, rfl⟩), Option.map_some,
      hP.obeyed.seen_eq_nil (Nat.le_refl _)]
  · rw [Function.update_of_ne hne]
    have hsame : (P.threads ++ [⟨op, siteProgram names op⟩])[j]? = P.threads[j]? := by
      rcases Nat.lt_or_gt_of_ne hne with hlt | hgt
      · exact List.getElem?_append_left hlt
      · rw [List.getElem?_eq_none (by simp; omega), List.getElem?_eq_none (by omega)]
    rw [hsame]
    rfl

theorem known_step (hn : P.threads[n]? = some ⟨op, .call c k⟩) (id : Uuid) :
    Known (siteNext names (.step n fate) P) id ↔
      (∃ r ∈ (P.sys.perform siteHandler ⟨n, op⟩ c fate).2.store.world.repositories.rows, r.id = id) ∨
        Known P id := by
  rw [show siteNext names (.step n fate) P = _ from next_step hn]
  unfold Known
  rw [perform_log]
  simp only [List.mem_cons, exists_eq_or_imp]

/-- A name that is still is one that no motion is from or to. -/
theorem Still.motions {name : String} (h : Still P name) :
    ∀ m x, Site.motions (requests P) m = some x → x.old ≠ name ∧ x.new ≠ name := by
  intro m x hm
  obtain ⟨y, hy, hmotion⟩ := Option.bind_eq_some_iff.mp hm
  obtain ⟨t, ht, rfl⟩ := exists_thread hy
  have hlt : m < P.threads.length := (List.getElem?_eq_some_iff.mp ht).1
  cases hop : t.op with
  | updateCurrentUser id new =>
    rw [hop] at hmotion
    obtain ⟨z, hz, rfl⟩ := Option.map_eq_some_iff.mp hmotion
    exact h m hlt z hz
  | _ =>
    rw [hop] at hmotion
    cases hmotion

/-- The owner of what a request makes has the name that the request has it under. -/
theorem nameOf_plannedOwner (hP : Sited P) {rest : SiteProg Unit} {p : Plan} {ownerId : Uuid}
    (hn : P.threads[n]? = some ⟨op, rest⟩) (hp : planned op = some p)
    (howner : plannedOwner op (seen n P.sys.log) = some ownerId)
    (hnow : OwnerNow P.sys.store.world op) :
    nameOf P.sys.store.world p.ownerType ownerId = some p.owner := by
  cases op with
  | createRepository r =>
    obtain rfl := Option.some.inj hp
    cases htype : r.ownerType with
    | user =>
      simp only [plannedOwner, htype, Option.some.injEq] at howner
      subst howner
      exact hnow htype
    | organization =>
      simp only [plannedOwner, htype] at howner
      obtain ⟨o, ho, rfl⟩ := Option.map_eq_some_iff.mp howner
      obtain ⟨hmem, hname⟩ := hP.organizations n r _ o (requests_of_thread hn) ho
      have hget : P.sys.store.world.organizations.get? o.id = some o := Table.get?_key hmem
      change (P.sys.store.world.organizations.get? o.id).map Organization.name = some r.owner
      rw [hget, ← hname]
      rfl
  | migrateSingleRepository r =>
    obtain rfl := Option.some.inj hp
    obtain rfl := Option.some.inj howner
    exact hnow
  | _ => cases hp

/-- What is removed is not held. -/
theorem not_held_of_mine (hP : Sited P) {rest : SiteProg Unit} {d : GitDirectory}
    {owner repo : String} {r : Except AppError Unit}
    (hn : P.threads[n]? = some ⟨op, rest⟩) (hbefore : Before op (seen n P.sys.log) (.deleteRepo owner repo))
    (hmine : Mine op (seen n P.sys.log) d) (hr : planned op = none → ∃ a, r = .ok a) {x : Holding}
    (hx : Held P.sys.store (Function.update (requests P) n
      (some (op, ⟨.deleteRepo owner repo, r⟩ :: seen n P.sys.log))) x) : x.id ≠ d.madeFor := by
  have hq := requests_of_thread hn
  intro hid
  rcases hbefore with ⟨p, hp, rfl, rfl, hmade, hmaking, hrow⟩ | ⟨hp, -, hfound⟩
  · unfold Mine at hmine
    rw [hp] at hmine
    rcases hx with ⟨row, hrow', rfl, -⟩ | ⟨m, y, hm, hmk, hh⟩
    · -- its own row was refused or is gone
      have hrowid : row.id = p.id := hid.trans hmine
      rcases hrow with hnot | hdel
      · have hins := hP.ids.inserted n _ p hq hp (hrowid ▸ hP.ids.rows row hrow')
        rw [hnot] at hins
        cases hins
      · exact hP.ids.gone n _ p hq hp hdel row hrow' hrowid
    · obtain ⟨p', hp', hh⟩ := Option.bind_eq_some_iff.mp hh
      obtain ⟨i, -, rfl⟩ := Option.map_eq_some_iff.mp hh
      rcases update_cases hm with ⟨rfl, rfl⟩ | ⟨hne, hm⟩
      · have hmk : making (seen m P.sys.log) = true := hmk
        rw [hmaking] at hmk
        cases hmk
      · exact hne (hP.ids.distinct m n y _ p' p hm hq hp' hp (hid.trans hmine))
  · unfold Mine at hmine
    rw [hp] at hmine
    obtain ⟨row₀, hrow₀, hid₀⟩ := Option.map_eq_some_iff.mp hmine
    rcases hx with ⟨row, -, rfl, hnot⟩ | ⟨m, y, hm, hmk, hh⟩
    · obtain ⟨a, rfl⟩ := hr hp
      refine hnot n _ (Function.update_self _ _ _) ?_
      change (found (seen n P.sys.log)).map Repository.id = some row.id
      rw [hmine]
      exact congrArg some hid.symm
    · obtain ⟨p', hp', hh⟩ := Option.bind_eq_some_iff.mp hh
      obtain ⟨i, -, rfl⟩ := Option.map_eq_some_iff.mp hh
      rcases update_cases hm with ⟨rfl, rfl⟩ | ⟨hne, hm⟩
      · rw [hp] at hp'
        cases hp'
      · have hidp : p'.id = row₀.id := hid.trans hid₀.symm
        refine hP.ids.not_known hm hp' hmk ?_
        rw [hidp]
        exact hP.ids.found n _ row₀ hq hrow₀

/-- **Home.** A call that is in order leaves everything held at home. -/
theorem home_step (hP : Sited P) (hn : P.threads[n]? = some ⟨op, .call c k⟩)
    (horderly : OrderlyCall P ⟨n, op⟩ fate c) :
    Home (P.sys.perform siteHandler ⟨n, op⟩ c fate).2.store
      (answered P.sys ⟨n, op⟩ c fate (requests P) n op (seen n P.sys.log)) := by
  have hq := requests_of_thread hn
  have hsteps := (hP.obeyed.rests n _ hn).1 (hP.keeps n _ hn)
  rcases hsteps with ⟨hremoved, hbefore⟩ | ⟨-, hmaking, id, hremoved, rfl⟩
  · by_cases hquiet : c.quiet = true
    · have hstore : (P.sys.perform siteHandler ⟨n, op⟩ c fate).2.store = P.sys.store :=
        perform_keeps (P := fun t => t = P.sys.store) rfl (exec_quiet hquiet)
      rw [hstore]
      exact hP.home.quiet hq hquiet hremoved hbefore
    cases c with
    | updateUser id name =>
      cases name with
      | none => exact absurd rfl hquiet
      | some new =>
        obtain ⟨⟨name, rfl⟩, old, hmoved⟩ := hbefore
        exact home_updateUser hP.home hq hmoved hremoved horderly
    | renameOwner old new =>
      obtain ⟨⟨id, name, rfl⟩, hne, hmoved | hmoved⟩ := hbefore
      · have horderly : fate = .refused ∨ P.sys.store.dirs.renameOwner old new = none ∨
            fate = .answered ∧ nameOf P.sys.store.world .user id = some old ∧ Still P old ∧
              Still P new ∧ ((P.sys.store.dirs old).isSome ∨
                P.sys.store.world.isNameTaken new = false) := by
          simpa only [OrderlyCall, hmoved, if_true, HasName] using horderly
        refine home_renameOwner hP.home hP.one hq hmoved hremoved hne ?_
        refine horderly.imp_right (Or.imp_right ?_)
        rintro ⟨hfate, hname, hold, hnew, hfree⟩
        exact ⟨hfate, hname, hold.motions, hnew.motions, hfree⟩
      · have hfate : fate ≠ .refused := by
          simpa only [OrderlyCall, hmoved, reduceCtorEq, if_false] using horderly
        exact home_renameBack hP.home hP.one hq hmoved hremoved hne.symm hfate
    | createRepo owner repo id =>
      obtain ⟨⟨ownerType, hp⟩, howner, -⟩ := hbefore
      obtain ⟨ownerId, howner⟩ := Option.isSome_iff_exists.mp howner
      refine home_createRepo (p := ⟨owner, repo, id, ownerType⟩) hP.home hq hp howner hremoved (Or.imp_right ?_ horderly)
      rintro ⟨hnone, hnow, hstill⟩
      exact ⟨hnone, nameOf_plannedOwner hP hn hp howner hnow, hstill.motions⟩
    | mirrorRepo owner repo id =>
      obtain ⟨⟨ownerType, hp⟩, howner, -⟩ := hbefore
      obtain ⟨ownerId, howner⟩ := Option.isSome_iff_exists.mp howner
      refine home_mirrorRepo (p := ⟨owner, repo, id, ownerType⟩) hP.home hq hp howner hremoved (Or.imp_right (Or.imp_right ?_) horderly)
      rintro ⟨hnow, hstill⟩
      exact ⟨nameOf_plannedOwner hP hn hp howner hnow, hstill.motions⟩
    | insertRepository id name ownerId ownerType visibility readonly =>
      obtain ⟨⟨owner, hp⟩, howner, hmaking, -⟩ := hbefore
      refine home_insertRepository hP.home hq hmaking ?_ hremoved horderly
      unfold holding
      rw [hp, howner]
      rfl
    | deleteRow id =>
      obtain ⟨p, -, -, hmaking⟩ := hbefore
      exact home_deleteRow hP.home hq hmaking (.inl hremoved) horderly
    | deleteRepo owner repo =>
      have hmaking : making (seen n P.sys.log) = false := by
        rcases hbefore with ⟨-, -, -, -, -, hmaking, -⟩ | ⟨-, hmaking, -⟩
        · exact hmaking
        · exact hmaking
      refine home_deleteRepo hP.home hq hmaking hremoved (horderly.imp_right ?_)
      rintro ⟨hanswered, hmine⟩
      exact ⟨hanswered, fun d hd r hr x hx => not_held_of_mine hP hn hbefore (hmine d hd) hr hx⟩
    | insertUser id bytes => exact absurd hbefore not_false
    | insertOrganization id owner name => exact absurd hbefore not_false
    | _ => exact absurd rfl hquiet
  · exact home_deleteRow hP.home hq hmaking (.inr hremoved) horderly

/-- A call of a request that neither signs a user up nor makes an organization. -/
theorem Sited.not_organization (hP : Sited P) (hn : P.threads[n]? = some ⟨op, .call c k⟩) :
    c.organizationName = none := by
  cases c with
  | insertOrganization id owner name =>
    rcases (hP.obeyed.rests n _ hn).1 (hP.keeps n _ hn) with ⟨-, hbefore⟩ | ⟨-, -, id, -, hc⟩
    · exact absurd hbefore not_false
    · cases hc
  | _ => rfl

theorem organizations_same (h : c.organizationName = none) (s : Storage) :
    (siteExec c s).2.world.organizations = s.world.organizations := by
  rcases organizations_exec c s with hsame | ⟨id, name, hname, -⟩
  · exact hsame
  · rw [h] at hname
    cases hname

/-- No record is of a new organization, so a name that was free of them still is. -/
theorem Sited.fresh (hP : Sited P) (hn : P.threads[n]? = some ⟨op, .call c k⟩) :
    FreshName P ⟨n, op⟩ c := by
  have hbefore := (hP.obeyed.rests n _ hn).1 (hP.keeps n _ hn)
  cases c with
  | insertUser id bytes =>
    rcases hbefore with ⟨-, hbefore⟩ | ⟨-, -, id, -, hc⟩
    · exact absurd hbefore not_false
    · cases hc
  | insertOrganization id owner name =>
    rcases hbefore with ⟨-, hbefore⟩ | ⟨-, -, id, -, hc⟩
    · exact absurd hbefore not_false
    · cases hc
  | updateUser id name =>
    cases name with
    | none => trivial
    | some new =>
      rintro ⟨caller, before, c, answer⟩ hm ⟨hname, -⟩
      have hmem : ⟨caller, before, c, answer⟩ ∈ P.sys.log := List.takeWhile_subset _ hm
      obtain ⟨newer, older, hlog⟩ := List.append_of_mem hmem
      have hsteps := hP.obeyed.calls _ older ⟨newer, hlog.symm⟩
      obtain ⟨t, ht, hop⟩ := hP.obeyed.callers _ hmem
      have hname : c.organizationName = some new := hname
      cases c with
      | insertOrganization id owner name =>
        rcases hsteps (hop ▸ hP.keeps _ t ht) with ⟨-, hbefore⟩ | ⟨-, -, id, -, hc⟩
        · exact absurd hbefore not_false
        · cases hc
      | _ => cases hname
  | _ => trivial

theorem one_step (hP : Sited P) (hn : P.threads[n]? = some ⟨op, .call c k⟩) :
    OneOwner (P.sys.perform siteHandler ⟨n, op⟩ c fate).2.store.world :=
  perform_keeps (P := fun s : Storage => OneOwner s.world) hP.one
    (one_exec hP.one (fun _ => hP.checking.no_organization hn (hP.fresh hn))
      fun _ => hP.checking.no_user hn (hP.fresh hn))

theorem organizations_step (hP : Sited P) (hn : P.threads[n]? = some ⟨op, .call c k⟩) :
    Organizations (P.sys.perform siteHandler ⟨n, op⟩ c fate).2.store.world
      (answered P.sys ⟨n, op⟩ c fate (requests P) n op (seen n P.sys.log)) := by
  have hsame : (P.sys.perform siteHandler ⟨n, op⟩ c fate).2.store.world.organizations =
      P.sys.store.world.organizations :=
    perform_keeps (P := fun s : Storage => s.world.organizations = P.sys.store.world.organizations) rfl
      (organizations_same (hP.not_organization hn) _)
  intro m r seen' o hm ho
  rw [hsame]
  rcases update_cases hm with ⟨rfl, heq⟩ | ⟨-, hm⟩
  · obtain ⟨rfl, rfl⟩ := Prod.mk.inj heq
    by_cases hget : ∃ name, c = .getOrganization name
    · obtain ⟨name, rfl⟩ := hget
      rcases (hP.obeyed.rests m _ hn).1 (hP.keeps m _ hn) with ⟨-, hbefore⟩ | ⟨-, -, id, -, hc⟩
      · obtain ⟨⟨r', hr, rfl⟩, -⟩ := hbefore
        cases hr
        cases hanswer : (P.sys.perform siteHandler ⟨m, .createRepository r⟩
            (.getOrganization r.owner) fate).1 with
        | error e =>
          rw [hanswer] at ho
          exact hP.organizations m r _ o (requests_of_thread hn) ho
        | ok found =>
          rw [hanswer] at ho
          cases found with
          | none => exact hP.organizations m r _ o (requests_of_thread hn) ho
          | some o' =>
            obtain rfl := Option.some.inj ho
            have hexec : P.sys.store.world.getOrganization r.owner = some o' :=
              Except.ok.inj (perform_ok hanswer).2
            exact ⟨List.mem_of_find?_eq_some hexec, by simpa using List.find?_some hexec⟩
      · cases hc
    · rw [foundOrganization_of_ne fun name hname => hget ⟨name, hname⟩] at ho
      exact hP.organizations m r _ o (requests_of_thread hn) ho
  · exact hP.organizations m r seen' o hm ho

/-- A call finds a repository that is there. -/
theorem found_answer {S : Sys SiteOp SiteCall SiteResp AppError Storage} {caller : Caller SiteOp}
    {seen : List SiteEvent} {r : Repository}
    (h : found (⟨c, (S.perform siteHandler caller c fate).1⟩ :: seen) = some r) :
    r ∈ S.store.world.repositories.rows ∨ found seen = some r := by
  cases c with
  | getRepository owner repo =>
    cases hanswer : (S.perform siteHandler caller (.getRepository owner repo) fate).1 with
    | error e =>
      rw [hanswer] at h
      exact .inr h
    | ok answer =>
      rw [hanswer] at h
      cases answer with
      | none => exact .inr h
      | some r' =>
        obtain rfl := Option.some.inj h
        have hexec : S.store.world.getRepository owner repo = some r' :=
          Except.ok.inj (perform_ok hanswer).2
        exact .inl (World.mem_repositoriesAt.mp (World.getRepository_mem hexec)).1
  | _ => exact .inr h

/-- A row that a call adds is the one that its request is to make. -/
theorem row_step (hP : Sited P) (hn : P.threads[n]? = some ⟨op, .call c k⟩)
    (horderly : OrderlyCall P ⟨n, op⟩ fate c) :
    ∀ r ∈ (P.sys.perform siteHandler ⟨n, op⟩ c fate).2.store.world.repositories.rows,
      r ∈ P.sys.store.world.repositories.rows ∨
        (isInserted ⟨c, (P.sys.perform siteHandler ⟨n, op⟩ c fate).1⟩ = true ∧
          isDeletion ⟨c, (P.sys.perform siteHandler ⟨n, op⟩ c fate).1⟩ = false ∧
          (seen n P.sys.log).any isDeletion = false ∧ ∃ p, planned op = some p ∧ r.id = p.id) := by
  intro r hr
  have hsteps := (hP.obeyed.rests n _ hn).1 (hP.keeps n _ hn)
  rcases repositories_exec c P.sys.store with hsame | ⟨row, rfl, hok, -, hinsert⟩ | ⟨id, -, herase⟩
  · left
    have hkeep : (P.sys.perform siteHandler ⟨n, op⟩ c fate).2.store.world.repositories =
        P.sys.store.world.repositories :=
      perform_keeps (P := fun s : Storage => s.world.repositories = P.sys.store.world.repositories)
        rfl hsame
    exact hkeep ▸ hr
  · cases fate with
    | refused => exact .inl hr
    | lost => exact absurd rfl horderly
    | answered =>
      rcases (Table.mem_insert? hinsert).mp hr with rfl | hr
      · right
        rcases hsteps with ⟨-, ⟨owner, hp⟩, -, -, hdel⟩ | ⟨-, -, id, -, hc⟩
        · refine ⟨?_, rfl, hdel, _, hp, rfl⟩
          have hans : (P.sys.perform siteHandler ⟨n, op⟩ (.insertRepository r.id r.name r.ownerId
              r.ownerType r.visibility r.readonly) .answered).1.isOk := hok
          cases hanswer : (P.sys.perform siteHandler ⟨n, op⟩ (.insertRepository r.id r.name r.ownerId
              r.ownerType r.visibility r.readonly) .answered).1 with
          | ok a => rfl
          | error e =>
            rw [hanswer] at hans
            cases hans
        · cases hc
      · exact .inl hr
  · left
    have hkeep : ∀ r ∈ (P.sys.perform siteHandler ⟨n, op⟩ c fate).2.store.world.repositories.rows,
        r ∈ P.sys.store.world.repositories.rows := by
      refine perform_keeps (P := fun s : Storage => ∀ r ∈ s.world.repositories.rows,
        r ∈ P.sys.store.world.repositories.rows) (fun _ h => h) fun r hr => ?_
      have hr : r ∈ (siteExec c P.sys.store).2.world.repositories.rows := hr
      rw [herase] at hr
      exact (Table.mem_erase.mp hr).1
    exact hkeep r hr

theorem ids_step (hP : Sited P) (hn : P.threads[n]? = some ⟨op, .call c k⟩)
    (horderly : OrderlyCall P ⟨n, op⟩ fate c) :
    Ids (P.sys.perform siteHandler ⟨n, op⟩ c fate).2.store
      (answered P.sys ⟨n, op⟩ c fate (requests P) n op (seen n P.sys.log))
      fun id => (∃ r ∈ (P.sys.perform siteHandler ⟨n, op⟩ c fate).2.store.world.repositories.rows,
        r.id = id) ∨ Known P id := by
  refine hP.ids.step (requests_of_thread hn) (row_step hP hn horderly) (fun hdel p hp r hr => ?_)
    fun r hr => found_answer hr
  cases c with
  | deleteRow id =>
    rcases (hP.obeyed.rests n _ hn).1 (hP.keeps n _ hn) with ⟨-, p', hp', rfl, -⟩ | ⟨hnone, -⟩
    · rw [hp] at hp'
      obtain rfl := Option.some.inj hp'
      have hrows : r ∈ (P.sys.store.world.repositories.erase p.id).rows := by
        cases fate with
        | refused => exact absurd rfl horderly
        | answered => exact hr
        | lost => exact hr
      exact (Table.mem_erase.mp hrows).2
    · rw [hp] at hnone
      cases hnone
  | _ => cases hdel

/-- **A call.** -/
theorem Sited.step (hP : Sited P) (hn : P.threads[n]? = some ⟨op, .call c k⟩)
    (horderly : OrderlyCall P ⟨n, op⟩ fate c) : Sited (siteNext names (.step n fate) P) := by
  have hnext : siteNext names (.step n fate) P = ⟨(P.sys.perform siteHandler ⟨n, op⟩ c fate).2,
      P.threads.set n ⟨op, k (P.sys.perform siteHandler ⟨n, op⟩ c fate).1⟩⟩ := next_step hn
  refine ⟨hP.obeyed.next obeys_steps, ⟨hP.checking.obeyed.next obeys_siteProgram,
    fun name => checked_next _ (hP.checking.organizations name),
    fun name => checked_next _ (hP.checking.users name)⟩, fun m t ht => ?_, ?_, ?_, ?_, ?_⟩
  · rw [hnext] at ht
    rcases (getElem?_step hn).mp ht with ⟨-, rfl⟩ | ⟨-, ht⟩
    · exact hP.keeps n ⟨op, .call c k⟩ hn
    · exact hP.keeps m t ht
  · rw [hnext]
    exact one_step hP hn
  · rw [requests_step hn, hnext]
    exact organizations_step hP hn
  · have hknown : Known (siteNext names (.step n fate) P) = _ :=
      funext fun id => propext (known_step hn id)
    rw [requests_step hn, hknown, hnext]
    exact ids_step hP hn horderly
  · rw [requests_step hn, hnext]
    exact home_step hP hn horderly

/-- A request that arrives holds nothing. -/
theorem Home.start {s : Storage} {q : Requests} (h : Home s q) (hn : q n = none) :
    Home s (Function.update q n (some (op, []))) := by
  obtain ⟨ahead, hlinked, hh⟩ := h
  refine ⟨ahead, ?_, hh.mono fun x hx => ?_⟩
  · have hmotion : motion (op, []) = motions q n := by
      unfold motions
      rw [hn]
      cases op <;> rfl
    rw [motions_update, hmotion, Function.update_eq_self]
    exact hlinked
  · rcases hx with ⟨r, hr, rfl, hnot⟩ | ⟨m, y, hm, hmk, hholding⟩
    · refine .inl ⟨r, hr, rfl, fun m y hm => hnot m y ?_⟩
      rw [Function.update_of_ne, hm]
      rintro rfl
      rw [hn] at hm
      cases hm
    · rcases update_cases hm with ⟨-, rfl⟩ | ⟨-, hm⟩
      · cases hmk
      · exact .inr ⟨m, y, hm, hmk, hholding⟩

/-- **An arrival.** -/
theorem Sited.start (hP : Sited P) (hg : Orderly P (.start op)) :
    Sited (siteNext names (.start op) P) := by
  have hnone : requests P P.threads.length = none := by
    unfold requests
    rw [List.getElem?_eq_none (Nat.le_refl _)]
    rfl
  refine ⟨hP.obeyed.next obeys_steps, ⟨hP.checking.obeyed.next obeys_siteProgram,
    fun name => checked_next _ (hP.checking.organizations name),
    fun name => checked_next _ (hP.checking.users name)⟩, fun m t ht => ?_, hP.one,
    fun m r seen' o hm ho => ?_, ?_, ?_⟩
  · rcases getElem?_start.mp ht with ht | ⟨-, rfl⟩
    · exact hP.keeps m t ht
    · exact hg.1
  · rw [requests_start hP] at hm
    rcases update_cases hm with ⟨-, heq⟩ | ⟨-, hm⟩
    · obtain ⟨-, rfl⟩ := Prod.mk.inj heq
      cases ho
    · exact hP.organizations m r seen' o hm ho
  · rw [requests_start hP]
    refine hP.ids.start fun p hp => ⟨(hg.2 p hp).1, fun m x p' hm hp' => ?_⟩
    obtain ⟨t, ht, rfl⟩ := exists_thread hm
    exact (hg.2 p hp).2 t (List.mem_of_getElem? ht) p' hp'
  · rw [requests_start hP]
    exact hP.home.start hnone

/-- The git directory of a repository is in the directory of its owner's name. -/
def Located (s : Storage) (r : Repository) : Prop :=
  ∃ owner ∈ nameOf s.world r.ownerType r.ownerId,
    s.dirs.find owner r.name = some ⟨r.name, r.id⟩

/-- Before the first request: every name has one owner, and every repository its
git directory. -/
structure Settled (P : SitePool) : Prop where
  log : P.sys.log = []
  threads : P.threads = []
  one : OneOwner P.sys.store.world
  located : ∀ r ∈ P.sys.store.world.repositories.rows, Located P.sys.store r

theorem Settled.sited (h : Settled P) : Sited P := by
  have hnone : ∀ m, requests P m = none := by
    intro m
    unfold requests
    rw [h.threads]
    rfl
  have hnoreq : ∀ {m : ℕ} {x : SiteOp × List SiteEvent}, requests P m ≠ some x := by
    intro m x hm
    rw [hnone] at hm
    cases hm
  have hchecked : ∀ {k : Check siteHandler undisturbed}, Checked k P := by
    rintro k number ⟨e, he, -⟩
    rw [h.log] at he
    cases he
  have hobeyed : ∀ {Q : SiteOp → List SiteEvent → SiteCall → Prop}
      {R : SiteOp → List SiteEvent → Except AppError Unit → Prop}, Obeyed Q R P := by
    intro Q R
    refine ⟨fun m hm => ?_, fun m older hm => ?_, fun m t ht => ?_⟩
    · rw [h.log] at hm
      cases hm
    · rw [h.log] at hm
      exact absurd (List.suffix_nil.mp hm) (List.cons_ne_nil _ _)
    · rw [h.threads] at ht
      cases ht
  refine ⟨hobeyed, ⟨hobeyed, fun _ => hchecked, fun _ => hchecked⟩, fun m t ht => ?_, h.one,
    fun m r seen' o hm => absurd hm hnoreq, ?_, fun _ => none, ?_, ?_⟩
  · rw [h.threads] at ht
    cases ht
  · exact ⟨fun m m' x y p p' hm => absurd hm hnoreq, fun m x p hm => absurd hm hnoreq,
      fun m x p hm => absurd hm hnoreq, fun r hr => .inl ⟨r, hr, rfl⟩,
      fun m x r hm => absurd hm hnoreq⟩
  · have hmotions : ∀ m x, motions (requests P) m ≠ some x := by
      intro m x hm
      obtain ⟨y, hy, -⟩ := Option.bind_eq_some_iff.mp hm
      exact hnoreq hy
    refine ⟨fun i new => ⟨nofun, ?_⟩, fun m m' x y hm => absurd hm (hmotions m x),
      fun m x hm => absurd hm (hmotions m x)⟩
    rintro ⟨m, old, hm⟩
    exact absurd hm (hmotions m _)
  · refine ⟨fun x hx => ?_, fun v hv => nofun, fun i j new => nofun, fun i new => nofun⟩
    rcases hx with ⟨r, hr, rfl, -⟩ | ⟨m, y, hm, -⟩
    · obtain ⟨owner, howner, hfind⟩ := h.located r hr
      exact ⟨owner, (place_of_none fun _ => rfl).trans howner, hfind⟩
    · exact absurd hm hnoreq

/-- **Runs.** -/
theorem sited_run (hrun : Reach Settled (siteNext names) Orderly P) : Sited P := by
  refine hrun.invariant (I := Sited) (fun P hP => hP.sited) fun P m hP hg => ?_
  cases m with
  | start op => exact hP.start hg
  | step n fate =>
    rcases atCall_or_done P n with ⟨op, c, k, hn⟩ | hdone
    · exact hP.step hn (hg (⟨n, op⟩, c) (by simp [Pool.calling, hn]))
    · rw [show siteNext names (.step n fate) P = P from hdone fate]
      exact hP
  | env e => cases e

/-- Nothing is under way when no request is. -/
theorem Sited.ends (hP : Sited P) (hdone : ∀ t ∈ P.threads, t.inFlight = false)
    {x : SiteOp × List SiteEvent} (hx : requests P n = some x) : ∃ r, Ends x.1 x.2 r := by
  obtain ⟨⟨op, rest⟩, ht, rfl⟩ := exists_thread hx
  have hobeys := hP.obeyed.rests n _ ht
  cases rest with
  | ret a => exact ⟨_, hobeys (hP.keeps n _ ht)⟩
  | fail e => exact ⟨_, hobeys (hP.keeps n _ ht)⟩
  | call c k => exact absurd (hdone _ (List.mem_of_getElem? ht)) (by simp [Thread.inFlight])

theorem Sited.located (hP : Sited P) (hdone : ∀ t ∈ P.threads, t.inFlight = false) :
    ∀ r ∈ P.sys.store.world.repositories.rows, Located P.sys.store r := by
  obtain ⟨ahead, hlinked, hh⟩ := hP.home
  intro r hr
  have hnone : ∀ i, ahead i = none := by
    intro i
    by_contra hsome
    obtain ⟨new, hnew⟩ := Option.ne_none_iff_exists'.mp hsome
    obtain ⟨m, old, hm⟩ := (hlinked.ahead_iff i new).mp hnew
    obtain ⟨x, hx, hmotion⟩ := Option.bind_eq_some_iff.mp hm
    obtain ⟨answer, hends⟩ := hP.ends hdone hx
    obtain ⟨op, seen'⟩ := x
    cases op with
    | updateCurrentUser id name =>
      rw [show motion (.updateCurrentUser id name, seen') = (moved seen').map _ from rfl,
        hends.moved] at hmotion
      cases hmotion
    | _ => cases hmotion
  have hheld : Held P.sys.store (requests P) (holdingOf r) := by
    refine .inl ⟨r, hr, rfl, fun m x hx => ?_⟩
    obtain ⟨answer, hends⟩ := hP.ends hdone hx
    rw [hends.removed]
    exact nofun
  obtain ⟨owner, hplace, hfind⟩ := hh.atHome _ hheld
  exact ⟨owner, (place_of_none fun _ => hnone _).symm.trans hplace, hfind⟩

/-- **A rename moves its own.** In a run whose calls are in order, every
repository has its git directory under the name of its owner whenever no request
is under way. -/
theorem renames_move_own (hrun : Reach Settled (siteNext names) Orderly P)
    (hdone : ∀ t ∈ P.threads, t.inFlight = false) :
    ∀ r ∈ P.sys.store.world.repositories.rows, Located P.sys.store r :=
  (sited_run hrun).located hdone

end Runs

/-! ### Two users and one name -/

/-- Two users, the first of whom has a repository. -/
def engineSite : SitePool where
  sys :=
    { store :=
        { world := { emptyWorld with
            users := (Table.empty.upsert ⟨1, "ada"⟩).upsert ⟨2, "bob"⟩
            repositories := Table.empty.upsert ⟨5, "engine", 1, .user, .publicRepo, false, .empty⟩ }
          dirs := fun owner => if owner = "ada" then some [⟨"engine", 5⟩] else none }
      log := [] }
  threads := []

theorem settled_engineSite : Settled engineSite := by
  refine ⟨rfl, rfl, ⟨⟨by decide, by decide, by decide⟩, fun name h => ?_⟩, fun r hr => ?_⟩
  · obtain ⟨-, o, ho, -⟩ := h
    cases ho
  · obtain rfl := List.mem_singleton.mp hr
    exact ⟨"ada", by decide, by decide⟩

/-- Both ask for the name acme and find it free. The first one gets it; the second
one, who has no directory, moves the first one's when it takes its own move back. -/
def bothToAcme : List SiteMove :=
  [.start (.updateCurrentUser 1 (some "acme")), .start (.updateCurrentUser 2 (some "acme")),
    .step 0 .answered, .step 1 .answered, .step 0 .answered, .step 1 .answered] ++
    List.replicate 2 (.step 0 .answered) ++ List.replicate 3 (.step 1 .answered)

theorem acme_moved_to_bob : ∃ P, Reach Settled (siteNext anyName) (fun _ _ => True) P ∧
    (∀ t ∈ P.threads, t.inFlight = false) ∧
    ∃ r ∈ P.sys.store.world.repositories.rows, ¬ Located P.sys.store r := by
  have hreach : Reach Settled (siteNext anyName) (fun _ _ => True)
      (play (siteNext anyName) bothToAcme engineSite) :=
    reach_play (.start settled_engineSite) guarded_true
  have hrow : ⟨5, "engine", 1, .user, .publicRepo, false, .empty⟩ ∈
      (play (siteNext anyName) bothToAcme engineSite).sys.store.world.repositories.rows := by
    decide +kernel
  have hname : nameOf (play (siteNext anyName) bothToAcme engineSite).sys.store.world .user 1 =
      some "acme" := by decide +kernel
  refine ⟨_, hreach, by decide +kernel, _, hrow, ?_⟩
  rintro ⟨owner, howner, hfind⟩
  obtain rfl := Option.some.inj (hname.symm.trans howner)
  revert hfind
  decide +kernel

/-- The first one gets the name acme while the second one gets another, and makes a
repository. -/
def acmeAndCarol : List SiteMove :=
  [.start (.updateCurrentUser 1 (some "acme")), .start (.updateCurrentUser 2 (some "carol"))] ++
    (List.replicate 4 [.step 0 .answered, .step 1 .answered]).flatten ++
    served 2 7 (.createRepository ⟨6, 2, "carol", "site", .user, .publicRepo, false⟩)

theorem renames_move_own_acmeAndCarol : ∃ P : SitePool,
    P.sys.store.world.repositories.rows.map Repository.name = ["engine", "site"] ∧
    nameOf P.sys.store.world .user 1 = some "acme" ∧
    ∀ r ∈ P.sys.store.world.repositories.rows, Located P.sys.store r :=
  ⟨play (siteNext anyName) acmeAndCarol engineSite, by decide +kernel, by decide +kernel,
    renames_move_own (reach_play (.start settled_engineSite) (by decide +kernel)) (by decide +kernel)⟩

end Site
end Gitdot
