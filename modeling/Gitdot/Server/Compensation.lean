/-
# A row and its directory go together

`create_repository`, `delete_repository` and `migrate_single_repository` write
the directory and the row in steps of their own and take the first back by hand
when the second fails. A hook that cannot be written leaves the directory of a
creation, a row that cannot be removed stays without its directory, and then
the deletion cannot be repeated: there is no directory to remove any more. And
what is taken back is whatever is at the path: of two creations that both found
it free, the one whose row is refused removes the directory of the other.

In a run whose steps meet `Compensated` none of that happens: rows and
directories go together whenever no request is under way, a request that has
failed has left nothing, and a deletion that has failed succeeds when it is
repeated (`repositories_together`). The condition asks that a directory is made
where there is none and that what is removed is one's own (`Orderly`), and that
the steps that nothing takes back do not fail after they have had an effect, or
not at all (`CompensatedCall`).

Key definitions: `NewRow`, `NewDirectory`, `LeftNothing`, `Together`,
`CompensatedCall`, `Compensated`, `DirsStep`, `Standing`.
Key theorems: `dirs_step`, `Standing.step`, `Kept.step`, `retry_ok`,
`repositories_together`.
-/
import Gitdot.Server.Renames

namespace Gitdot
namespace Site

open Lib Prog Keyed

/-! ### What a request leaves -/

/-- Between the stores a row was added. -/
def NewRow (before after : Storage) (r : Repository) : Prop :=
  r ∈ after.world.repositories.rows ∧ r ∉ before.world.repositories.rows

/-- Between the directories a git directory was made at the path. -/
def NewDirectory (before after : Directories) (owner repo : String) (d : GitDirectory) : Prop :=
  after.find owner repo = some d ∧ before.find owner repo ≠ some d

/-- The calls so far, each with the store it has left. -/
abbrev Trace : Type := List (Made SiteOp SiteCall SiteResp AppError Storage × Storage)

def trace (P : SitePool) : Trace := transitions P.sys.store P.sys.log

/-- The git directory was made by a call of the request. -/
def MadeBy (tr : Trace) (n : ℕ) (owner repo : String) (d : GitDirectory) : Prop :=
  ∃ x ∈ tr, x.1.caller.number = n ∧ NewDirectory x.1.before.dirs x.2.dirs owner repo d

/-- No row and no directory that a call of the request has added is left, and it has
removed no directory but such a one. -/
structure LeftNothing (P : SitePool) (n : ℕ) : Prop where
  rows : ∀ x ∈ trace P, x.1.caller.number = n → ∀ r, NewRow x.1.before x.2 r →
    ∀ q ∈ P.sys.store.world.repositories.rows, q.id ≠ r.id
  made : ∀ owner repo d, MadeBy (trace P) n owner repo d → P.sys.store.dirs.find owner repo ≠ some d
  removed : ∀ x ∈ trace P, x.1.caller.number = n → ∀ owner repo d,
    NewDirectory x.2.dirs x.1.before.dirs owner repo d → MadeBy (trace P) n owner repo d

/-- **Together.** Every row has its directory; a request that was answered with an error
has left nothing; and a deletion that was succeeds when it is repeated, if the caller
may still delete what is at the path. -/
structure Together (P : SitePool) : Prop where
  located : ∀ r ∈ P.sys.store.world.repositories.rows, Located P.sys.store r
  nothing : ∀ n op e, P.result n = some (op, .error e) → LeftNothing P n
  repeated : ∀ n caller owner repo e,
    P.result n = some (.deleteRepository caller owner repo, .error e) →
    P.sys.store.world.verifyAuthorizedForRepository ⟨some caller, owner, repo, .admin⟩ = .ok () →
    (run siteHandler (deleteRepository caller owner repo) [] P.sys.store).1 = .ok ()

/-! ### The condition -/

/-- The request creates, deletes or migrates a repository. -/
def SiteOp.onRepository : SiteOp → Bool
  | .createRepository _ | .deleteRepository .. | .migrateSingleRepository _ => true
  | _ => false

/-- The request creates a repository. -/
def SiteOp.creates : SiteOp → Bool
  | .createRepository _ => true
  | _ => false

/-- **The steps that nothing takes back.** A directory that is made is answered so, or is there
already where a mirror is made; the hooks of a creation are written; a deletion removes the row when
it has removed the directory, and a clean-up does remove the directory. -/
def CompensatedCall (P : SitePool) (op : SiteOp) (fate : Fate) : SiteCall → Prop
  | .createRepo .. => fate ≠ .lost
  | .mirrorRepo owner repo _ => fate = .lost → (P.sys.store.dirs.find owner repo).isSome
  | .installHook .. => op.creates = true → fate = .answered
  | .deleteRow _ => planned op = none → fate = .answered
  | .deleteRepo .. => planned op = none ∨ fate ≠ .refused
  | _ => True

/-- The requests are on repositories, and their calls come in order and do not fail where nothing
takes back what they have done. -/
def Compensated (P : SitePool) (m : SiteMove) : Prop :=
  Orderly P m ∧ match m with
    | .start op => op.onRepository = true
    | .step n fate => ∀ x ∈ P.calling (.step n fate : SiteMove), CompensatedCall P x.1.op fate x.2
    | .env _ => True

instance (P : SitePool) (op : SiteOp) (fate : Fate) :
    (c : SiteCall) → Decidable (CompensatedCall P op fate c)
  | .createRepo .. => inferInstanceAs (Decidable (_ ≠ _))
  | .mirrorRepo .. | .installHook .. | .deleteRow _ => inferInstanceAs (Decidable (_ → _))
  | .deleteRepo .. => inferInstanceAs (Decidable (_ ∨ _))
  | .insertUser .. | .isNameTaken _ | .getUserById _ | .updateUser .. | .renameOwner ..
  | .getOrganization _ | .getUser _ | .insertOrganization .. | .verifyAuthorizedForRepositoryCreation _
  | .repoExists .. | .emptyHooks .. | .insertRepository .. | .createInitialCommit ..
  | .verifyAuthorizedForRepository _ | .getRepository .. => instDecidableTrue

instance (P : SitePool) : (m : SiteMove) → Decidable (Compensated P m)
  | .start _ => inferInstanceAs (Decidable (_ ∧ _))
  | .step _ _ => inferInstanceAs (Decidable (_ ∧ ∀ x ∈ _, _))
  | .env _ => inferInstanceAs (Decidable (_ ∧ True))

/-- Before the first request: rows and directories go together, and no user has the
id of an organization. -/
structure Paired (P : SitePool) : Prop where
  settled : Settled P
  apart : ∀ u ∈ P.sys.store.world.users.rows, ∀ o ∈ P.sys.store.world.organizations.rows, u.id ≠ o.id
  owned : ∀ owner repo d, P.sys.store.dirs.find owner repo = some d →
    ∃ r ∈ P.sys.store.world.repositories.rows, r.id = d.madeFor

/-! ### What a call does to the directories -/

/-- The directories stay, the request makes its own where there is none, or one that is
the request's own is removed. -/
inductive DirsStep (op : SiteOp) (seen : List SiteEvent) (e : SiteEvent) (dirs dirs' : Directories) :
    Prop where
  | same (find : ∀ o r, dirs'.find o r = dirs.find o r) (making : isMaking e = false)
      (removal : isRemoval e = true → planned op = none)
  | made (p : Plan) (plan : planned op = some p) (free : dirs.find p.owner p.name = none)
      (find : ∀ o r, dirs'.find o r =
        if o = p.owner ∧ r = p.name then some ⟨p.name, p.id⟩ else dirs.find o r)
      (making : isMaking e = true) (removal : (e :: seen).any isRemoval = false)
  | removed (owner repo : String)
      (find : ∀ o r, dirs'.find o r = if o = owner ∧ r = repo then none else dirs.find o r)
      (mine : ∀ d ∈ dirs.find owner repo, Mine op seen d)
      (path : ∀ p ∈ planned op, p.owner = owner ∧ p.name = repo)
      (making : Site.making (e :: seen) = false) (done : planned op = none → isRemoved e = true)

section Calls

variable {op : SiteOp} {c : SiteCall} {fate : Fate} {seen : List SiteEvent} {e : SiteEvent}
  {dirs dirs' : Directories} {S : Sys SiteOp SiteCall SiteResp AppError Storage}
  {caller : Caller SiteOp}

/-- A call that leaves the directories. -/
theorem DirsStep.of_eq (h : dirs' = dirs) (hmaking : isMaking e = false)
    (hremoval : isRemoval e = true → planned op = none) : DirsStep op seen e dirs dirs' :=
  .same (fun _ _ => by rw [h]) hmaking hremoval

theorem not_making_of_quiet (h : c.quiet = true) (r : Except AppError (SiteResp c)) :
    isMaking ⟨c, r⟩ = false ∧ isRemoval ⟨c, r⟩ = false := by
  cases c with
  | updateUser id name => exact ⟨rfl, rfl⟩
  | _ => first | exact ⟨rfl, rfl⟩ | cases h

/-- A call on rows leaves the directories. -/
theorem dirs_exec (h : c.onDisk = false) (s : Storage) : (siteExec c s).2.dirs = s.dirs := by
  cases c with
  | updateUser id name =>
    simp only [siteExec, Storage.updateUser]
    split
    · rfl
    · split
      · rfl
      · split_ifs <;> rfl
  | insertOrganization id owner name =>
    simp only [siteExec, Storage.insertOrganization]
    split_ifs
    · rfl
    · rfl
    · split <;> rfl
  | insertRepository id name ownerId ownerType visibility readonly =>
    simp only [siteExec, Storage.insertRepository]
    split <;> rfl
  | _ => first | rfl | cases h

/-- A call, by what becomes of it. -/
theorem dirs_of_exec {r : Except AppError (SiteResp c)} {s : Storage} (hexec : siteExec c S.store = (r, s))
    (hrefused : fate = .refused → ∀ e, DirsStep op seen ⟨c, .error e⟩ S.store.dirs S.store.dirs)
    (hanswered : fate = .answered → DirsStep op seen ⟨c, r⟩ S.store.dirs s.dirs)
    (hlost : fate = .lost → ∀ e, DirsStep op seen ⟨c, .error e⟩ S.store.dirs s.dirs) :
    DirsStep op seen ⟨c, (S.perform siteHandler caller c fate).1⟩ S.store.dirs
      (S.perform siteHandler caller c fate).2.store.dirs :=
  perform_of_exec (Q := fun a (s : Storage) => DirsStep op seen ⟨c, a⟩ S.store.dirs s.dirs) hexec
    (fun h => hrefused h _) hanswered fun h => hlost h _

theorem dirs_mirrorRepo {p : Plan} (hp : planned op = some p) (hremoval : seen.any isRemoval = false)
    (hlost : fate = .lost → (S.store.dirs.find p.owner p.name).isSome) :
    DirsStep op seen ⟨_, (S.perform siteHandler caller (.mirrorRepo p.owner p.name p.id) fate).1⟩
      S.store.dirs
      (S.perform siteHandler caller (.mirrorRepo p.owner p.name p.id) fate).2.store.dirs := by
  have hkeep : ∀ e, DirsStep op seen ⟨.mirrorRepo p.owner p.name p.id, .error e⟩ S.store.dirs
      S.store.dirs := fun e => .of_eq rfl rfl nofun
  by_cases hthere : (S.store.dirs.find p.owner p.name).isSome
  · have hexec : siteExec (.mirrorRepo p.owner p.name p.id) S.store =
        (.error (.git (.git2Error "git clone failed: ")), S.store) := if_pos hthere
    exact dirs_of_exec hexec (fun _ => hkeep) (fun _ => hkeep _) fun _ => hkeep
  · have hexec : siteExec (.mirrorRepo p.owner p.name p.id) S.store =
        (.ok (), { S.store with dirs := S.store.dirs.createRepo p.owner p.name p.id }) := if_neg hthere
    have hnone : S.store.dirs.find p.owner p.name = none := by simpa using hthere
    exact dirs_of_exec hexec (fun _ => hkeep)
      (fun _ => .made p hp hnone (Directories.find_createRepo hnone) rfl hremoval)
      fun hfate => absurd (hlost hfate) hthere

theorem dirs_deleteRepo {owner repo : String} (hpath : ∀ p ∈ planned op, p.owner = owner ∧ p.name = repo)
    (hmaking : making seen = false) (hfate : planned op = none ∨ fate ≠ .refused)
    (horderly : fate = .refused ∨ (planned op = none → fate = .answered) ∧
      ∀ d ∈ S.store.dirs.find owner repo, Mine op seen d) :
    DirsStep op seen ⟨_, (S.perform siteHandler caller (.deleteRepo owner repo) fate).1⟩
      S.store.dirs (S.perform siteHandler caller (.deleteRepo owner repo) fate).2.store.dirs := by
  have hkeep : planned op = none → ∀ e, DirsStep op seen ⟨.deleteRepo owner repo, .error e⟩
      S.store.dirs S.store.dirs := fun hp e => .of_eq rfl rfl fun _ => hp
  have hrefused : fate = .refused → planned op = none := fun h => hfate.resolve_right fun hne => hne h
  rcases horderly with rfl | ⟨hanswered, hmine⟩
  · exact dirs_of_exec rfl (fun h => hkeep (hrefused h)) nofun nofun
  by_cases hthere : (S.store.dirs.find owner repo).isSome
  · have hexec : siteExec (.deleteRepo owner repo) S.store =
        (.ok (), { S.store with dirs := S.store.dirs.deleteRepo owner repo }) := if_pos hthere
    have hremove : ∀ r : Except AppError Unit, (planned op = none → isRemoved ⟨.deleteRepo owner repo, r⟩ = true) →
        DirsStep op seen ⟨.deleteRepo owner repo, r⟩ S.store.dirs (S.store.dirs.deleteRepo owner repo) :=
      fun r => .removed owner repo (Directories.find_deleteRepo _ owner repo) hmine hpath hmaking
    refine dirs_of_exec hexec (fun h => hkeep (hrefused h)) (fun _ => hremove _ fun _ => rfl)
      fun hlost e => hremove _ fun hp => ?_
    rw [hanswered hp] at hlost
    cases hlost
  · -- there is none: a clean-up has nothing to remove, and a deletion fails
    have hexec : siteExec (.deleteRepo owner repo) S.store = (.error noSuchDirectory, S.store) :=
      if_neg hthere
    have hnothing : ∀ e, DirsStep op seen ⟨.deleteRepo owner repo, .error e⟩ S.store.dirs
        S.store.dirs := by
      intro e
      cases hp : planned op with
      | none => exact hkeep hp e
      | some p =>
        have hnone : S.store.dirs.find owner repo = none := by simpa using hthere
        refine .removed owner repo (fun o r => ?_) hmine hpath hmaking fun hp' => ?_
        · split_ifs with heq
          · obtain ⟨rfl, rfl⟩ := heq
            exact hnone
          · rfl
        · rw [hp] at hp'
          cases hp'
    exact dirs_of_exec hexec (fun h => hkeep (hrefused h)) (fun _ => hnothing _) fun _ => hnothing

end Calls

/-! ### Where the directories come from -/

/-- A repository that is being made has its directory, the directory of a request is
one that it has made and not removed, and every directory is that of a repository
or of a request. -/
structure Standing (dirs : Directories) (q : Requests) (known : Uuid → Prop) (tr : Trace) : Prop where
  there : ∀ n x p, q n = some x → planned x.1 = some p → making x.2 = true →
    dirs.find p.owner p.name = some ⟨p.name, p.id⟩
  own : ∀ n x p, q n = some x → planned x.1 = some p →
    ∀ owner repo d, dirs.find owner repo = some d → d.madeFor = p.id →
      (owner = p.owner ∧ repo = p.name) ∧ x.2.any isRemoval = false ∧ MadeBy tr n owner repo d
  origin : ∀ owner repo d, dirs.find owner repo = some d →
    known d.madeFor ∨ ∃ n x p, q n = some x ∧ planned x.1 = some p ∧ p.id = d.madeFor

/-- What a call has done was its request's: it has added the row that the request is to
make, made its directory, or removed one that the request has made. -/
structure Traced (tr : Trace) (x : Made SiteOp SiteCall SiteResp AppError Storage × Storage) : Prop where
  row : ∀ r, NewRow x.1.before x.2 r →
    isInserted x.1.event = true ∧ ∃ p, planned x.1.caller.op = some p ∧ r.id = p.id
  made : ∀ owner repo d, NewDirectory x.1.before.dirs x.2.dirs owner repo d →
    isMaking x.1.event = true ∧ ∃ p, planned x.1.caller.op = some p ∧ d.madeFor = p.id
  removed : ∀ owner repo d, NewDirectory x.2.dirs x.1.before.dirs owner repo d →
    (planned x.1.caller.op = none → isRemoved x.1.event = true) ∧
      ((planned x.1.caller.op).isSome → MadeBy tr x.1.caller.number owner repo d)

section Standing

variable {q : Requests} {n : ℕ} {op : SiteOp} {seen : List SiteEvent} {e : SiteEvent}
  {dirs dirs' : Directories} {known known' : Uuid → Prop} {tr : Trace} {s : Storage}
  {x : Made SiteOp SiteCall SiteResp AppError Storage × Storage}

theorem MadeBy.cons {m : ℕ} {owner repo : String} {d : GitDirectory} (h : MadeBy tr m owner repo d) :
    MadeBy (x :: tr) m owner repo d := by
  obtain ⟨y, hy, hnumber, hnew⟩ := h
  exact ⟨y, List.mem_cons_of_mem _ hy, hnumber, hnew⟩

theorem Traced.cons {y : Made SiteOp SiteCall SiteResp AppError Storage × Storage} (h : Traced tr y) :
    Traced (x :: tr) y := by
  refine ⟨h.row, h.made, fun owner repo d hnew => ?_⟩
  obtain ⟨hnone, hsome⟩ := h.removed owner repo d hnew
  exact ⟨hnone, fun hp => (hsome hp).cons⟩

theorem making_of_cons (he : isMaking e = false) (h : making (e :: seen) = true) :
    making seen = true := by
  unfold making at h ⊢
  simp only [List.any_cons, he, Bool.false_or, Bool.and_eq_true, Bool.not_eq_true',
    Bool.or_eq_false_iff] at h ⊢
  exact ⟨⟨h.1.1, h.1.2.2⟩, h.2.2⟩

/-- A request that arrives has no directory. -/
theorem Standing.start (h : Standing dirs q known tr) (hn : q n = none)
    (hfresh : ∀ p, planned op = some p → ¬ known p.id ∧
      ∀ m x p', q m = some x → planned x.1 = some p' → p'.id ≠ p.id) :
    Standing dirs (Function.update q n (some (op, []))) known tr := by
  refine ⟨fun m x p hm hp hmk => ?_, fun m x p hm hp owner repo d hd hid => ?_,
    fun owner repo d hd => ?_⟩
  · rcases update_cases hm with ⟨-, rfl⟩ | ⟨-, hm⟩
    · cases hmk
    · exact h.there m x p hm hp hmk
  · rcases update_cases hm with ⟨-, rfl⟩ | ⟨-, hm⟩
    · rcases h.origin owner repo d hd with hknown | ⟨m', x', p', hm', hp', hid'⟩
      · exact absurd (hid ▸ hknown) (hfresh p hp).1
      · exact absurd (hid'.trans hid) ((hfresh p hp).2 m' x' p' hm' hp')
    · exact h.own m x p hm hp owner repo d hd hid
  · refine (h.origin owner repo d hd).imp_right ?_
    rintro ⟨m, x, p, hm, hp, hid⟩
    refine ⟨m, x, p, ?_, hp, hid⟩
    rw [Function.update_of_ne, hm]
    rintro rfl
    rw [hn] at hm
    cases hm

/-- Where a directory comes from does not change with a call. -/
theorem Standing.origin_cons (h : Standing dirs q known tr) (hq : q n = some (op, seen))
    (hknown : ∀ id, known id → known' id) {owner repo : String} {d : GitDirectory}
    (hd : dirs.find owner repo = some d) : known' d.madeFor ∨
      ∃ m x p, Function.update q n (some (op, e :: seen)) m = some x ∧ planned x.1 = some p ∧
        p.id = d.madeFor := by
  refine (h.origin owner repo d hd).imp (hknown _) ?_
  rintro ⟨m, x, p, hm, hp, hid⟩
  rcases eq_or_ne m n with rfl | hne
  · obtain rfl := Option.some.inj (hq.symm.trans hm)
    exact ⟨m, _, p, Function.update_self _ _ _, hp, hid⟩
  · exact ⟨m, x, p, (Function.update_of_ne hne _ _).trans hm, hp, hid⟩

/-- A call that leaves the directories. -/
theorem Standing.same (h : Standing dirs q known tr) (hq : q n = some (op, seen))
    (hknown : ∀ id, known id → known' id) (hfind : ∀ o r, dirs'.find o r = dirs.find o r)
    (hmaking : isMaking e = false) (hremoval : isRemoval e = true → planned op = none) :
    Standing dirs' (Function.update q n (some (op, e :: seen))) known' (x :: tr) := by
  refine ⟨fun m x p hm hp hmk => ?_, fun m x p hm hp owner repo d hd hid => ?_,
    fun owner repo d hd => ?_⟩
  · rw [hfind]
    rcases update_cases hm with ⟨rfl, rfl⟩ | ⟨-, hm⟩
    · exact h.there m _ p hq hp (making_of_cons hmaking hmk)
    · exact h.there m x p hm hp hmk
  · rw [hfind] at hd
    rcases update_cases hm with ⟨rfl, rfl⟩ | ⟨-, hm⟩
    · obtain ⟨hpath, hkept, hmade⟩ := h.own m _ p hq hp owner repo d hd hid
      refine ⟨hpath, ?_, hmade.cons⟩
      change (isRemoval e || seen.any isRemoval) = false
      cases he : isRemoval e with
      | false => exact hkept
      | true =>
        have hp : planned op = some p := hp
        rw [hremoval he] at hp
        cases hp
    · obtain ⟨hpath, hkept, hmade⟩ := h.own m x p hm hp owner repo d hd hid
      exact ⟨hpath, hkept, hmade.cons⟩
  · rw [hfind] at hd
    exact h.origin_cons hq hknown hd

/-- A call that makes the directory of its request. -/
theorem Standing.make {p₀ : Plan} (h : Standing dirs q known tr) (hI : Ids s q known)
    (hq : q n = some (op, seen)) (hknown : ∀ id, known id → known' id)
    (hp₀ : planned op = some p₀) (hfree : dirs.find p₀.owner p₀.name = none)
    (hfind : ∀ o r, dirs'.find o r =
      if o = p₀.owner ∧ r = p₀.name then some ⟨p₀.name, p₀.id⟩ else dirs.find o r)
    (hremoval : (e :: seen).any isRemoval = false) (hnumber : x.1.caller.number = n)
    (hnew : NewDirectory x.1.before.dirs x.2.dirs p₀.owner p₀.name ⟨p₀.name, p₀.id⟩) :
    Standing dirs' (Function.update q n (some (op, e :: seen))) known' (x :: tr) := by
  have hself : Function.update q n (some (op, e :: seen)) n = some (op, e :: seen) :=
    Function.update_self _ _ _
  refine ⟨fun m x p hm hp hmk => ?_, fun m x p hm hp owner repo d hd hid => ?_,
    fun owner repo d hd => ?_⟩
  · rw [hfind]
    rcases update_cases hm with ⟨rfl, rfl⟩ | ⟨-, hm⟩
    · obtain rfl := Option.some.inj (hp₀.symm.trans hp)
      exact if_pos ⟨rfl, rfl⟩
    · have hthere := h.there m x p hm hp hmk
      rw [if_neg, hthere]
      rintro ⟨howner, hname⟩
      rw [howner, hname, hfree] at hthere
      cases hthere
  · rw [hfind] at hd
    split_ifs at hd with hpath
    · obtain rfl := Option.some.inj hd
      obtain ⟨rfl, rfl⟩ := hpath
      have hmn : m = n := by
        rcases update_cases hm with ⟨hmn, -⟩ | ⟨-, hm⟩
        · exact hmn
        · exact hI.distinct m n x _ p p₀ hm hq hp hp₀ hid.symm
      subst hmn
      obtain rfl := Option.some.inj (hself.symm.trans hm)
      obtain rfl := Option.some.inj (hp₀.symm.trans hp)
      exact ⟨⟨rfl, rfl⟩, hremoval, _, List.mem_cons_self, hnumber, hnew⟩
    · rcases update_cases hm with ⟨rfl, rfl⟩ | ⟨-, hm⟩
      · obtain ⟨hpath', -⟩ := h.own m _ p hq hp owner repo d hd hid
        obtain rfl := Option.some.inj (hp₀.symm.trans hp)
        exact absurd hpath' hpath
      · obtain ⟨hpath', hkept, hmade⟩ := h.own m x p hm hp owner repo d hd hid
        exact ⟨hpath', hkept, hmade.cons⟩
  · rw [hfind] at hd
    split_ifs at hd with hpath
    · obtain rfl := Option.some.inj hd
      exact .inr ⟨n, _, p₀, hself, hp₀, rfl⟩
    · exact h.origin_cons hq hknown hd

/-- What a request removes is not what another one is making. -/
theorem not_mine_of_making {m : ℕ} {y : SiteOp × List SiteEvent} {p : Plan} (hI : Ids s q known)
    (hq : q n = some (op, seen)) (hne : m ≠ n) (hm : q m = some y) (hp : planned y.1 = some p)
    (hmaking : making y.2 = true) {d : GitDirectory} (hd : d.madeFor = p.id) : ¬ Mine op seen d := by
  intro hmine
  unfold Mine at hmine
  cases hop : planned op with
  | some p₀ =>
    rw [hop] at hmine
    exact hne (hI.distinct m n y _ p p₀ hm hq hp hop (hd.symm.trans hmine))
  | none =>
    rw [hop] at hmine
    obtain ⟨r, hr, hrid⟩ := Option.map_eq_some_iff.mp hmine
    have hrid : r.id = p.id := hrid.trans hd
    exact hI.not_known hm hp hmaking (hrid ▸ hI.found n _ r hq hr)

/-- A call that removes a directory of its request. -/
theorem Standing.remove {owner₀ repo₀ : String} (h : Standing dirs q known tr) (hI : Ids s q known)
    (hq : q n = some (op, seen)) (hknown : ∀ id, known id → known' id)
    (hfind : ∀ o r, dirs'.find o r = if o = owner₀ ∧ r = repo₀ then none else dirs.find o r)
    (hmine : ∀ d ∈ dirs.find owner₀ repo₀, Mine op seen d)
    (hpath : ∀ p ∈ planned op, p.owner = owner₀ ∧ p.name = repo₀)
    (hmaking : making (e :: seen) = false) :
    Standing dirs' (Function.update q n (some (op, e :: seen))) known' (x :: tr) := by
  refine ⟨fun m x p hm hp hmk => ?_, fun m x p hm hp owner repo d hd hid => ?_,
    fun owner repo d hd => ?_⟩
  · rw [hfind]
    rcases update_cases hm with ⟨rfl, rfl⟩ | ⟨hne, hm⟩
    · have hmk : making (e :: seen) = true := hmk
      rw [hmaking] at hmk
      cases hmk
    · have hthere := h.there m x p hm hp hmk
      rw [if_neg, hthere]
      rintro ⟨rfl, rfl⟩
      exact not_mine_of_making hI hq hne hm hp hmk rfl (hmine _ hthere)
  · rw [hfind] at hd
    split_ifs at hd with hat
    rcases update_cases hm with ⟨rfl, rfl⟩ | ⟨-, hm⟩
    · obtain ⟨⟨rfl, rfl⟩, -⟩ := h.own m _ p hq hp owner repo d hd hid
      exact absurd (hpath p hp) fun hp' => hat ⟨hp'.1, hp'.2⟩
    · obtain ⟨hpath', hkept, hmade⟩ := h.own m x p hm hp owner repo d hd hid
      exact ⟨hpath', hkept, hmade.cons⟩
  · rw [hfind] at hd
    split_ifs at hd
    exact h.origin_cons hq hknown hd

/-- **Directories of the requests.** A call keeps them. -/
theorem Standing.step (h : Standing dirs q known tr) (hI : Ids s q known) (hq : q n = some (op, seen))
    (hstep : DirsStep op seen e dirs dirs') (hknown : ∀ id, known id → known' id)
    (hnumber : x.1.caller.number = n) (hbefore : x.1.before.dirs = dirs) (hafter : x.2.dirs = dirs') :
    Standing dirs' (Function.update q n (some (op, e :: seen))) known' (x :: tr) := by
  cases hstep with
  | same hfind hmaking hremoval => exact h.same hq hknown hfind hmaking hremoval
  | made p hp hfree hfind hmaking hremoval =>
    refine h.make hI hq hknown hp hfree hfind hremoval hnumber ⟨?_, ?_⟩
    · rw [hafter, hfind, if_pos ⟨rfl, rfl⟩]
    · rw [hbefore, hfree]
      exact nofun
  | removed owner repo hfind hmine hpath hmaking hdone =>
    exact h.remove hI hq hknown hfind hmine hpath hmaking

/-- What a call has done to the directories was its request's. -/
theorem Standing.traced (h : Standing dirs q known tr) (hq : q n = some (op, seen))
    (hstep : DirsStep op seen e dirs dirs') {owner repo : String} {d : GitDirectory} :
    (NewDirectory dirs dirs' owner repo d →
      isMaking e = true ∧ ∃ p, planned op = some p ∧ d.madeFor = p.id) ∧
    (NewDirectory dirs' dirs owner repo d → (planned op = none → isRemoved e = true) ∧
      ((planned op).isSome → MadeBy tr n owner repo d)) := by
  unfold NewDirectory
  cases hstep with
  | same hfind hmaking hremoval =>
    rw [hfind]
    exact ⟨fun hnew => absurd hnew.1 hnew.2, fun hnew => absurd hnew.1 hnew.2⟩
  | made p hp hfree hfind hmaking hremoval =>
    rw [hfind]
    split_ifs with hpath
    · refine ⟨fun hnew => ?_, fun hnew => ?_⟩
      · obtain rfl := Option.some.inj hnew.1
        exact ⟨hmaking, p, hp, rfl⟩
      · rw [hpath.1, hpath.2, hfree] at hnew
        cases hnew.1
    · exact ⟨fun hnew => absurd hnew.1 hnew.2, fun hnew => absurd hnew.1 hnew.2⟩
  | removed owner₀ repo₀ hfind hmine hpath hmaking hdone =>
    rw [hfind]
    split_ifs with hat
    · refine ⟨fun hnew => (nomatch hnew.1), fun hnew => ⟨hdone, fun hsome => ?_⟩⟩
      obtain ⟨p, hp⟩ := Option.isSome_iff_exists.mp hsome
      have hmine := hmine d (by rw [← hat.1, ← hat.2]; exact hnew.1)
      unfold Mine at hmine
      rw [hp] at hmine
      exact (h.own n _ p hq hp owner repo d hnew.1 hmine).2.2
    · exact ⟨fun hnew => absurd hnew.1 hnew.2, fun hnew => absurd hnew.1 hnew.2⟩

end Standing

section Runs

variable {names : Names} {P : SitePool} {n : ℕ} {op : SiteOp} {c : SiteCall} {fate : Fate}
  {k : Except AppError (SiteResp c) → SiteProg Unit}

/-- **Directories.** What a call of a request on a repository does to them. -/
theorem dirs_step (hP : Sited P) (hop : op.onRepository = true)
    (hn : P.threads[n]? = some ⟨op, .call c k⟩) (horderly : OrderlyCall P ⟨n, op⟩ fate c)
    (hcomp : CompensatedCall P op fate c) :
    DirsStep op (seen n P.sys.log) ⟨c, (P.sys.perform siteHandler ⟨n, op⟩ c fate).1⟩
      P.sys.store.dirs (P.sys.perform siteHandler ⟨n, op⟩ c fate).2.store.dirs := by
  have hrows : c.onDisk = false →
      (P.sys.perform siteHandler ⟨n, op⟩ c fate).2.store.dirs = P.sys.store.dirs := fun h =>
    perform_keeps (P := fun t : Storage => t.dirs = P.sys.store.dirs) rfl (dirs_exec h _)
  rcases (hP.obeyed.rests n _ hn).1 (hP.keeps n _ hn) with ⟨-, hbefore⟩ | ⟨-, -, id, -, rfl⟩
  · by_cases hquiet : c.quiet = true
    · have hstore : (P.sys.perform siteHandler ⟨n, op⟩ c fate).2.store = P.sys.store :=
        perform_keeps (P := fun t => t = P.sys.store) rfl (exec_quiet hquiet)
      rw [hstore]
      obtain ⟨hmaking, hremoval⟩ := not_making_of_quiet hquiet
        (P.sys.perform siteHandler ⟨n, op⟩ c fate).1
      exact .of_eq rfl hmaking fun h => by simp [hremoval] at h
    cases c with
    | insertUser id bytes => exact absurd hbefore not_false
    | insertOrganization id owner name => exact absurd hbefore not_false
    | renameOwner old new =>
      obtain ⟨⟨id, name, rfl⟩, -⟩ := hbefore
      cases hop
    | updateUser id name => exact .of_eq (hrows rfl) rfl nofun
    | insertRepository id name ownerId ownerType visibility readonly =>
      exact .of_eq (hrows rfl) rfl nofun
    | deleteRow id => exact .of_eq (hrows rfl) rfl nofun
    | createRepo owner repo id =>
      obtain ⟨⟨ownerType, hp⟩, -, -, -, -, hremoval⟩ := hbefore
      cases fate with
      | refused => exact .of_eq rfl rfl nofun
      | lost => exact absurd rfl hcomp
      | answered =>
        obtain ⟨hnone, -⟩ := horderly.resolve_left nofun
        exact .made _ hp hnone (Directories.find_createRepo hnone) rfl hremoval
    | mirrorRepo owner repo id =>
      obtain ⟨⟨ownerType, hp⟩, -, -, -, -, hremoval⟩ := hbefore
      exact dirs_mirrorRepo hp hremoval hcomp
    | deleteRepo owner repo =>
      rcases hbefore with ⟨p, hp, howner, hname, -, hmaking, -⟩ | ⟨hnone, hmaking, -⟩
      · refine dirs_deleteRepo (fun p' hp' => ?_) hmaking hcomp horderly
        rw [hp] at hp'
        obtain rfl := Option.some.inj hp'
        exact ⟨howner, hname⟩
      · refine dirs_deleteRepo (fun p hp => ?_) hmaking hcomp horderly
        rw [hnone] at hp
        cases hp
    | _ => exact absurd rfl hquiet
  · exact .of_eq (hrows rfl) rfl nofun

/-! ### Runs -/

/-- What holds in a run whose steps are compensated. -/
structure Kept (P : SitePool) : Prop where
  sited : Sited P
  onRepository : ∀ (n : ℕ) t, P.threads[n]? = some t → t.op.onRepository = true
  standing : Standing P.sys.store.dirs (requests P) (Known P) (trace P)
  traced : ∀ x ∈ trace P, Traced (trace P) x
  hooked : ∀ n x, requests P n = some x → x.1.creates = true → x.2.any isHookFailure = false
  deleted : ∀ n x, requests P n = some x → planned x.1 = none → x.2.any isDeletionFailure = false
  apart : ∀ u ∈ P.sys.store.world.users.rows, ∀ o ∈ P.sys.store.world.organizations.rows, u.id ≠ o.id

/-- A hook of a creation is written. -/
theorem hook_written (hP : Kept P) (hn : P.threads[n]? = some ⟨op, .call c k⟩)
    (hcomp : CompensatedCall P op fate c) (hop : op.creates = true) :
    isHookFailure ⟨c, (P.sys.perform siteHandler ⟨n, op⟩ c fate).1⟩ = false := by
  cases c with
  | installHook owner repo hook =>
    obtain rfl := hcomp hop
    rcases (hP.sited.obeyed.rests n _ hn).1 (hP.sited.keeps n _ hn) with
      ⟨-, p, hp, rfl, rfl, hmaking⟩ | ⟨-, -, id, -, hc⟩
    · have hthere := hP.standing.there n _ p (requests_of_thread hn) hp hmaking
      have hexec : (siteExec (.installHook p.owner p.name hook) P.sys.store).1 = .ok () := by
        simp only [siteExec, Storage.inDirectory, hthere, Option.isSome_some, if_true]
      change isHookFailure ⟨_, (siteExec (.installHook p.owner p.name hook) P.sys.store).1⟩ = false
      rw [hexec]
      rfl
    · cases hc
  | emptyHooks owner repo =>
    rcases (hP.sited.obeyed.rests n _ hn).1 (hP.sited.keeps n _ hn) with
      ⟨-, r, rfl⟩ | ⟨-, -, id, -, hc⟩
    · cases hop
    · cases hc
  | _ => rfl

/-- The row that a deletion removes is removed. -/
theorem row_deleted (hcomp : CompensatedCall P op fate c) (hop : planned op = none) :
    isDeletionFailure ⟨c, (P.sys.perform siteHandler ⟨n, op⟩ c fate).1⟩ = false := by
  cases c with
  | deleteRow id =>
    obtain rfl := hcomp hop
    rfl
  | _ => rfl

/-- A call of a request on a repository leaves the users. -/
theorem users_same (hP : Sited P) (hop : op.onRepository = true)
    (hn : P.threads[n]? = some ⟨op, .call c k⟩) (s : Storage) :
    (siteExec c s).2.world.users = s.world.users := by
  rcases users_exec c s with hsame | ⟨id, name, hname, -⟩
  · exact hsame
  rcases (hP.obeyed.rests n _ hn).1 (hP.keeps n _ hn) with ⟨-, hbefore⟩ | ⟨-, -, id, -, rfl⟩
  · cases c with
    | insertUser id bytes => exact absurd hbefore not_false
    | updateUser id new =>
      obtain rfl : new = some name := hname
      obtain ⟨⟨name, rfl⟩, -⟩ := hbefore
      cases hop
    | _ => cases hname
  · cases hname

/-- **A call.** -/
theorem Kept.step (hP : Kept P) (hn : P.threads[n]? = some ⟨op, .call c k⟩)
    (horderly : OrderlyCall P ⟨n, op⟩ fate c) (hcomp : CompensatedCall P op fate c) :
    Kept (siteNext names (.step n fate) P) := by
  have hnext : siteNext names (.step n fate) P = ⟨(P.sys.perform siteHandler ⟨n, op⟩ c fate).2,
      P.threads.set n ⟨op, k (P.sys.perform siteHandler ⟨n, op⟩ c fate).1⟩⟩ := next_step hn
  have htrace : trace (siteNext names (.step n fate) P) =
      (⟨⟨n, op⟩, P.sys.store, c, (P.sys.perform siteHandler ⟨n, op⟩ c fate).1⟩,
        (P.sys.perform siteHandler ⟨n, op⟩ c fate).2.store) :: trace P := by
    rw [hnext]
    rfl
  have hop := hP.onRepository n _ hn
  have hq := requests_of_thread hn
  have hdirs := dirs_step hP.sited hop hn horderly hcomp
  refine ⟨hP.sited.step hn horderly, fun m t ht => ?_, ?_, fun x hx => ?_, fun m x hm hcreates => ?_,
    fun m x hm hplan => ?_, ?_⟩
  · rw [hnext] at ht
    rcases (getElem?_step hn).mp ht with ⟨-, rfl⟩ | ⟨-, ht⟩
    · exact hop
    · exact hP.onRepository m t ht
  · rw [requests_step hn, htrace, hnext]
    refine hP.standing.step hP.sited.ids hq hdirs (fun id hid => ?_) rfl rfl rfl
    rw [← hnext]
    exact (known_step hn id).mpr (.inr hid)
  · rw [htrace] at hx ⊢
    rcases List.mem_cons.mp hx with rfl | hx
    · refine ⟨fun r hr => ?_, fun owner repo d => (hP.standing.traced hq hdirs).1,
        fun owner repo d hnew => ?_⟩
      · obtain ⟨hinserted, -, -, hplan⟩ := (row_step hP.sited hn horderly r hr.1).resolve_left hr.2
        exact ⟨hinserted, hplan⟩
      · obtain ⟨hnone, hsome⟩ := (hP.standing.traced hq hdirs).2 hnew
        exact ⟨hnone, fun hp => (hsome hp).cons⟩
    · exact (hP.traced x hx).cons
  · rw [requests_step hn] at hm
    rcases update_cases hm with ⟨-, rfl⟩ | ⟨-, hm⟩
    · exact Bool.or_eq_false_iff.mpr ⟨hook_written hP hn hcomp hcreates, hP.hooked n _ hq hcreates⟩
    · exact hP.hooked m x hm hcreates
  · rw [requests_step hn] at hm
    rcases update_cases hm with ⟨-, rfl⟩ | ⟨-, hm⟩
    · exact Bool.or_eq_false_iff.mpr ⟨row_deleted hcomp hplan, hP.deleted n _ hq hplan⟩
    · exact hP.deleted m x hm hplan
  · rw [hnext]
    refine perform_keeps (P := fun s : Storage => ∀ u ∈ s.world.users.rows,
      ∀ o ∈ s.world.organizations.rows, u.id ≠ o.id) hP.apart ?_
    have husers : (siteExec c P.sys.store).2.world.users = _ := users_same hP.sited hop hn _
    have horgs := organizations_same (hP.sited.not_organization hn) P.sys.store
    change ∀ u ∈ (siteExec c P.sys.store).2.world.users.rows,
      ∀ o ∈ (siteExec c P.sys.store).2.world.organizations.rows, u.id ≠ o.id
    rw [husers, horgs]
    exact hP.apart

/-- **An arrival.** -/
theorem Kept.start (hP : Kept P) (hg : Compensated P (.start op)) :
    Kept (siteNext names (.start op) P) := by
  have hnone : requests P P.threads.length = none := by
    unfold requests
    rw [List.getElem?_eq_none (Nat.le_refl _)]
    rfl
  refine ⟨hP.sited.start hg.1, fun m t ht => ?_, ?_, hP.traced, fun m x hm hcreates => ?_,
    fun m x hm hplan => ?_, hP.apart⟩
  · rcases getElem?_start.mp ht with ht | ⟨-, rfl⟩
    · exact hP.onRepository m t ht
    · exact hg.2
  · rw [requests_start hP.sited]
    refine hP.standing.start hnone fun p hp => ⟨(hg.1.2 p hp).1, fun m x p' hm hp' => ?_⟩
    obtain ⟨t, ht, rfl⟩ := exists_thread hm
    exact (hg.1.2 p hp).2 t (List.mem_of_getElem? ht) p' hp'
  · rw [requests_start hP.sited] at hm
    rcases update_cases hm with ⟨-, rfl⟩ | ⟨-, hm⟩
    · rfl
    · exact hP.hooked m x hm hcreates
  · rw [requests_start hP.sited] at hm
    rcases update_cases hm with ⟨-, rfl⟩ | ⟨-, hm⟩
    · rfl
    · exact hP.deleted m x hm hplan

theorem Paired.kept (h : Paired P) : Kept P := by
  have hnone : ∀ {m : ℕ} {x : SiteOp × List SiteEvent}, requests P m ≠ some x := by
    intro m x hm
    unfold requests at hm
    rw [h.settled.threads] at hm
    cases hm
  have htrace : trace P = [] := by
    unfold trace
    rw [h.settled.log]
    rfl
  refine ⟨h.settled.sited, fun m t ht => ?_, ⟨fun m x p hm => absurd hm hnone,
    fun m x p hm => absurd hm hnone, fun owner repo d hd => .inl (.inl (h.owned owner repo d hd))⟩,
    fun x hx => ?_, fun m x hm => absurd hm hnone, fun m x hm => absurd hm hnone, h.apart⟩
  · rw [h.settled.threads] at ht
    cases ht
  · rw [htrace] at hx
    cases hx

/-- **Runs.** -/
theorem kept_run (hrun : Reach Paired (siteNext names) Compensated P) : Kept P := by
  refine hrun.invariant (I := Kept) (fun P hP => hP.kept) fun P m hP hg => ?_
  cases m with
  | start op => exact hP.start hg
  | step n fate =>
    rcases atCall_or_done P n with ⟨op, c, k, hn⟩ | hdone
    · have hcalling : (⟨⟨n, op⟩, c⟩ : Caller SiteOp × SiteCall) ∈
          P.calling (.step n fate : SiteMove) := by simp [Pool.calling, hn]
      exact hP.step hn (hg.1 _ hcalling) (hg.2 _ hcalling)
    · rw [show siteNext names (.step n fate) P = P from hdone fate]
      exact hP
  | env e => cases e

/-! ### What is left, and what can be repeated -/

/-- What a request has ended with an error, it has seen. -/
theorem Kept.undone (hP : Kept P) {e : AppError} (hr : P.result n = some (op, .error e)) :
    requests P n = some (op, seen n P.sys.log) ∧ Undone op (seen n P.sys.log) := by
  have ht := result_error.mp hr
  have hends : op.keepsOwners = true → Ends op (seen n P.sys.log) (.error e) :=
    hP.sited.obeyed.rests n _ ht
  exact ⟨requests_of_thread ht, (hends (hP.sited.keeps n _ ht)).undone e rfl⟩

/-- What a call of the trace was answered, its request has seen. -/
theorem Kept.seen_of_trace (hP : Kept P) {s : List SiteEvent} (hq : requests P n = some (op, s))
    {x : Made SiteOp SiteCall SiteResp AppError Storage × Storage} (hx : x ∈ trace P)
    (hnumber : x.1.caller.number = n) : x.1.caller.op = op ∧ x.1.event ∈ s := by
  have hlog := mem_of_mem_transitions hx
  obtain ⟨t, ht, hop⟩ := hP.sited.obeyed.callers _ hlog
  obtain ⟨t', ht', heq⟩ := exists_thread hq
  obtain ⟨rfl, rfl⟩ := Prod.mk.inj heq
  rw [hnumber, ht'] at ht
  obtain rfl := Option.some.inj ht
  exact ⟨hop.symm, mem_seen.mpr ⟨x.1, hlog, hnumber, rfl⟩⟩

/-- No row of a request that has failed is left. -/
theorem Kept.no_row (hP : Kept P) {s : List SiteEvent} (hq : requests P n = some (op, s))
    (hundone : Undone op s) : ∀ x ∈ trace P, x.1.caller.number = n → ∀ r, NewRow x.1.before x.2 r →
      ∀ q ∈ P.sys.store.world.repositories.rows, q.id ≠ r.id := by
  intro x hx hnumber r hr q hrow hid
  obtain ⟨hop, hevent⟩ := hP.seen_of_trace hq hx hnumber
  obtain ⟨hinserted, p, hp, hrp⟩ := (hP.traced x hx).row r hr
  rw [hop] at hp
  unfold Undone at hundone
  rw [hp] at hundone
  have hsome : s.any isInserted = true := List.any_eq_true.mpr ⟨_, hevent, hinserted⟩
  have hdeleted := hundone.2.resolve_left (by simp [hsome])
  exact hP.sited.ids.gone n _ p hq hp hdeleted q hrow (hid.trans hrp)

/-- No directory of a request that has failed is left. -/
theorem Kept.no_directory (hP : Kept P) {s : List SiteEvent} (hq : requests P n = some (op, s))
    (hundone : Undone op s) : ∀ owner repo d, MadeBy (trace P) n owner repo d →
      P.sys.store.dirs.find owner repo ≠ some d := by
  rintro owner repo d ⟨x, hx, hnumber, hnew⟩ hfind
  obtain ⟨hop, hevent⟩ := hP.seen_of_trace hq hx hnumber
  obtain ⟨hmaking, p, hp, hdp⟩ := (hP.traced x hx).made owner repo d hnew
  rw [hop] at hp
  unfold Undone at hundone
  rw [hp] at hundone
  rcases hundone.1 with hnot | hremoval | ⟨⟨r, rfl⟩, hhook⟩
  · have hsome : s.any isMaking = true := List.any_eq_true.mpr ⟨_, hevent, hmaking⟩
    rw [hnot] at hsome
    cases hsome
  · have hkept : s.any isRemoval = false := (hP.standing.own n _ p hq hp owner repo d hfind hdp).2.1
    rw [hremoval] at hkept
    cases hkept
  · have hnone : s.any isHookFailure = false := hP.hooked n _ hq rfl
    rw [hhook] at hnone
    cases hnone

/-- A request that has failed has removed only what it had made. -/
theorem Kept.no_removal (hP : Kept P) {s : List SiteEvent} (hq : requests P n = some (op, s))
    (hundone : Undone op s) : ∀ x ∈ trace P, x.1.caller.number = n → ∀ owner repo d,
      NewDirectory x.2.dirs x.1.before.dirs owner repo d → MadeBy (trace P) n owner repo d := by
  intro x hx hnumber owner repo d hnew
  obtain ⟨hop, hevent⟩ := hP.seen_of_trace hq hx hnumber
  obtain ⟨hnone, hsome⟩ := (hP.traced x hx).removed owner repo d hnew
  rw [hop] at hnone hsome
  rw [hnumber] at hsome
  cases hp : planned op with
  | some p => exact hsome (by rw [hp]; rfl)
  | none =>
    unfold Undone at hundone
    rw [hp] at hundone
    rcases hundone with hnot | hfailed
    · have hremoved : s.any isRemoved = true := List.any_eq_true.mpr ⟨_, hevent, hnone hp⟩
      rw [hnot] at hremoved
      cases hremoved
    · have hdeleted : s.any isDeletionFailure = false := hP.deleted n _ hq hp
      rw [hfailed] at hdeleted
      cases hdeleted

/-- A request that has failed has left nothing. -/
theorem Kept.nothing (hP : Kept P) {e : AppError} (hr : P.result n = some (op, .error e)) :
    LeftNothing P n := by
  obtain ⟨hq, hundone⟩ := hP.undone hr
  exact ⟨hP.no_row hq hundone, hP.no_directory hq hundone, hP.no_removal hq hundone⟩

/-- Who has the id that a name stands for has the name. -/
theorem nameOf_of_ownerIds {w : World} (hapart : ∀ u ∈ w.users.rows, ∀ o ∈ w.organizations.rows, u.id ≠ o.id)
    {t : RepositoryOwnerType} {i : Uuid} {owner name : String} (hi : i ∈ w.ownerIds owner)
    (hname : nameOf w t i = some name) : name = owner := by
  rcases World.mem_ownerIds.mp hi with ⟨u, hu, rfl, rfl⟩ | ⟨o, ho, rfl, rfl⟩
  · cases t with
    | user =>
      obtain ⟨v, hv, rfl⟩ := Option.map_eq_some_iff.mp hname
      have hget : w.users.get? u.id = some u := Table.get?_key hu
      rw [hget] at hv
      rw [Option.some.inj hv]
    | organization =>
      obtain ⟨o, ho, rfl⟩ := Option.map_eq_some_iff.mp hname
      exact absurd (Table.key_of_get? ho).symm (hapart u hu o (Table.mem_rows_of_get? ho))
  · cases t with
    | user =>
      obtain ⟨v, hv, rfl⟩ := Option.map_eq_some_iff.mp hname
      exact absurd (Table.key_of_get? hv) (hapart v (Table.mem_rows_of_get? hv) o ho)
    | organization =>
      obtain ⟨o', ho', rfl⟩ := Option.map_eq_some_iff.mp hname
      have hget : w.organizations.get? o.id = some o := Table.get?_key ho
      rw [hget] at ho'
      rw [Option.some.inj ho']

/-- **Repeated.** Where every row has its directory, who may delete a repository does. -/
theorem retry_ok {s : Storage}
    (hapart : ∀ u ∈ s.world.users.rows, ∀ o ∈ s.world.organizations.rows, u.id ≠ o.id)
    (hlocated : ∀ r ∈ s.world.repositories.rows, Located s r) {caller : Uuid} {owner repo : String}
    (hauth : s.world.verifyAuthorizedForRepository ⟨some caller, owner, repo, .admin⟩ = .ok ()) :
    (run siteHandler (deleteRepository caller owner repo) [] s).1 = .ok () := by
  have hfound : ∃ r, s.world.getRepository owner repo = some r := by
    cases hget : s.world.getRepository owner repo with
    | none =>
      simp only [World.verifyAuthorizedForRepository, hget, reduceCtorEq] at hauth
    | some r => exact ⟨r, rfl⟩
  obtain ⟨r, hr⟩ := hfound
  obtain ⟨hrow, rfl, howner⟩ := World.mem_repositoriesAt.mp (World.getRepository_mem hr)
  obtain ⟨name, hname, hfind⟩ := hlocated r hrow
  obtain rfl := nameOf_of_ownerIds hapart howner hname
  have hremove : siteHandler.exec (.deleteRepo name r.name) s =
      (.ok (), { s with dirs := s.dirs.deleteRepo name r.name }) := by
    change (if (s.dirs.find name r.name).isSome then _ else _) = _
    rw [hfind]
    rfl
  have hverify : siteHandler.exec (.verifyAuthorizedForRepository ⟨some caller, name, r.name, .admin⟩) s =
      (.ok (Except.ok () : Except AuthorizationError Unit), s) :=
    congrArg (fun a : Except AuthorizationError Unit => (Except.ok a, s)) hauth
  have hget : siteHandler.exec (.getRepository name r.name) s = (.ok (some r), s) :=
    congrArg (fun a : Option Repository => (Except.ok a, s)) hr
  unfold deleteRepository ask
  rw [run_perform_bind_ok rfl hverify]
  dsimp only
  rw [run_perform_bind_ok rfl hget]
  dsimp only
  rw [run_perform_bind_ok rfl hremove]
  rfl

/-- **Together.** In a run whose steps are compensated, rows and directories go together
whenever no request is under way, a request that has failed has left nothing, and a
deletion that has failed succeeds when it is repeated. -/
theorem repositories_together (hrun : Reach Paired (siteNext names) Compensated P)
    (hdone : ∀ t ∈ P.threads, t.inFlight = false) : Together P := by
  have hP := kept_run hrun
  have hlocated := hP.sited.located hdone
  exact ⟨hlocated, fun n op e hr => hP.nothing hr, fun n caller owner repo e _ hauth =>
    retry_ok hP.apart hlocated hauth⟩

end Runs

/-! ### Two creations at one path -/

/-- The requests are on repositories, made under ids that are new and for who has the
name; they interleave and fail as they may. -/
def Requested (P : SitePool) : SiteMove → Prop
  | .start op => op.onRepository = true ∧ OwnerNow P.sys.store.world op ∧
    ∀ p ∈ planned op, ¬ Known P p.id ∧ ∀ t ∈ P.threads, ∀ p' ∈ planned t.op, p'.id ≠ p.id
  | _ => True

instance (P : SitePool) : (m : SiteMove) → Decidable (Requested P m)
  | .start _ => inferInstanceAs (Decidable (_ ∧ _))
  | .step _ _ | .env _ => instDecidableTrue

theorem paired_engineSite : Paired engineSite := by
  refine ⟨settled_engineSite, fun u hu o ho => (nomatch ho), fun owner repo d hd => ?_⟩
  by_cases howner : owner = "ada"
  · subst howner
    have hmem : d ∈ [(⟨"engine", 5⟩ : GitDirectory)] := List.mem_of_find?_eq_some hd
    obtain rfl := List.mem_singleton.mp hmem
    exact ⟨_, List.mem_singleton.mpr rfl, rfl⟩
  · have hnone : engineSite.sys.store.dirs.find owner repo = none :=
      Directories.find_of_nil (Directories.of_of_none (if_neg howner)) repo
    rw [hnone] at hd
    cases hd

/-- Both find the path free, and make the one directory. The second one's row is
refused, and it removes the directory of the first one's. -/
def twoSites : List SiteMove :=
  [.start (.createRepository ⟨6, 1, "ada", "site", .user, .publicRepo, false⟩),
    .start (.createRepository ⟨7, 1, "ada", "site", .user, .publicRepo, false⟩)] ++
    (List.replicate 2 [.step 0 .answered, .step 1 .answered]).flatten ++
    List.replicate 5 (.step 0 .answered) ++ List.replicate 6 (.step 1 .answered)

theorem site_removed_by_other : ∃ P, Reach Paired (siteNext anyName) Requested P ∧
    (∀ t ∈ P.threads, t.inFlight = false) ∧ ¬ Together P := by
  have hreach : Reach Paired (siteNext anyName) Requested
      (play (siteNext anyName) twoSites engineSite) :=
    reach_play (.start paired_engineSite) (by decide +kernel)
  have hrow : ⟨6, "site", 1, .user, .publicRepo, false, .empty⟩ ∈
      (play (siteNext anyName) twoSites engineSite).sys.store.world.repositories.rows := by
    decide +kernel
  have hname : nameOf (play (siteNext anyName) twoSites engineSite).sys.store.world .user 1 =
      some "ada" := by decide +kernel
  refine ⟨_, hreach, by decide +kernel, fun h => ?_⟩
  obtain ⟨owner, howner, hfind⟩ := h.located _ hrow
  obtain rfl := Option.some.inj (hname.symm.trans howner)
  revert hfind
  decide +kernel

/-- A creation whose row is refused takes its directory back, a deletion cannot remove
the directory, and the creation is repeated. -/
def siteAgain : List SiteMove :=
  .start (.createRepository ⟨6, 1, "ada", "site", .user, .publicRepo, false⟩) ::
    List.replicate 6 (.step 0 .answered) ++ [.step 0 .refused, .step 0 .answered] ++
    [.start (.deleteRepository 1 "ada" "engine"), .step 1 .answered, .step 1 .answered,
      .step 1 .refused] ++
    served 2 7 (.createRepository ⟨7, 1, "ada", "site", .user, .publicRepo, false⟩)

theorem repositories_together_siteAgain : ∃ P : SitePool,
    P.sys.store.world.repositories.rows.map Repository.id = [5, 7] ∧
    (P.result 0).map (fun x => x.2.isOk) = some false ∧
    (P.result 1).map (fun x => x.2.isOk) = some false ∧ Together P :=
  ⟨play (siteNext anyName) siteAgain engineSite, by decide +kernel, by decide +kernel,
    by decide +kernel,
    repositories_together (reach_play (.start paired_engineSite) (by decide +kernel))
      (by decide +kernel)⟩

end Site
end Gitdot
