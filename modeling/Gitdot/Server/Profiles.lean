/-
# A profile update made again

`update_current_user` changes the profile columns that a request has, and the
name if it has one. The statement sets just these columns: with none to set it
is no statement, so a request that sets nothing is refused. A name is looked up
before it is compared with the name that the user has, and the look-up also
finds the user's own row.

A request without a name can be made again: the second run finds the columns as
it sets them (`Profile.set_set`). One with a name cannot: the name that the first
run has written is taken in the second (`run_of_taken`), and so is the current
name of the user, for which nothing would have to move. So a request repeats if
and only if it has no name (`updates_idempotent_iff`).

But for the profile the program is `Site.updateCurrentUser`, call for call
(`run_updateCurrentUser_site`). The image, the provider, the emails and the times
of a user are left out.

Key definitions: `Profile`, `UpdateCurrentUserRequest`, `ProfileStorage`,
`ProfileCall`, `profileHandler`, `updateCurrentUser`, `Idempotent`.
Key theorems: `run_updateCurrentUser_site`, `Profile.set_set`, `run_of_taken`,
`ensures_isNameTaken`, `not_repeats_of_name`, `updates_idempotent_iff`.
-/
import Gitdot.Lib.Text
import Gitdot.Server.Housing

namespace Gitdot
namespace Profiles

open Lib Lib.Text Prog Site

/-! ### The columns -/

/-- The profile columns of `core.users`. -/
structure Profile where
  location : Option (Varchar 255)
  readme : Option String
  links : List String
  displayName : Option (Varchar 255)
  deriving DecidableEq

structure UpdateCurrentUserRequest where
  userId : Uuid
  name : Option String
  location : Option String
  readme : Option String
  links : Option (List String)
  displayName : Option String
  deriving DecidableEq

/-- Why a statement cannot be run, with what the database reports. -/
inductive StatementError where
  /-- `syntax error at or near` a word. -/
  | syntaxError (near : String)
  /-- `invalid byte sequence for encoding "UTF8": 0x00`. -/
  | invalidByteSequence
  /-- `value too long for type character varying` of a length. -/
  | valueTooLong (length : ℕ)
  deriving DecidableEq

/-- What a statement sets the profile columns to. -/
structure Assignments where
  location : Option (Varchar 255)
  readme : Option String
  links : Option (List String)
  displayName : Option (Varchar 255)
  deriving DecidableEq

namespace UpdateCurrentUserRequest

variable (request : UpdateCurrentUserRequest)

/-- There is no column after `SET`. -/
def setsNothing : Bool :=
  request.name.isNone && request.location.isNone && request.readme.isNone &&
    request.links.isNone && request.displayName.isNone

/-- The texts that are bound. -/
def texts : List String :=
  request.name.toList ++ request.location.toList ++ request.readme.toList ++
    request.links.getD [] ++ request.displayName.toList

/-- A text for a column of 255 characters. -/
def varchar (text : String) : Except StatementError (Varchar 255) :=
  okOr (Varchar.assign 255 text) (.valueTooLong 255)

/-- The columns that `update` sets, if its statement can be run at all. -/
def assignments : Except StatementError Assignments :=
  if request.setsNothing then .error (.syntaxError "WHERE")
  else if request.texts.any fun text => text.toList.contains (Char.ofNat 0) then
    .error .invalidByteSequence
  else do
    let location ← request.location.mapM varchar
    let displayName ← request.displayName.mapM varchar
    pure ⟨location, request.readme, request.links, displayName⟩

end UpdateCurrentUserRequest

/-- The profile with the columns set, those that the statement does not name left
as they are. -/
def Profile.set (p : Profile) (a : Assignments) : Profile where
  location := a.location.or p.location
  readme := a.readme.or p.readme
  links := a.links.getD p.links
  displayName := a.displayName.or p.displayName

/-- Columns set again. -/
@[simp] theorem Profile.set_set (p : Profile) (a : Assignments) : (p.set a).set a = p.set a := by
  obtain ⟨location, readme, links, displayName⟩ := a
  cases location <;> cases readme <;> cases links <;> cases displayName <;> rfl

/-! ### Calls -/

/-- The site, with the profile columns of each user. -/
structure ProfileStorage where
  site : Storage
  profiles : Uuid → Profile

/-- The row of a user. -/
structure UserRow where
  user : User
  profile : Profile
  deriving DecidableEq

/-- `update`. What keeps the statement from being run is reported before any row
is looked for. -/
def ProfileStorage.update (s : ProfileStorage) (request : UpdateCurrentUserRequest) :
    Except AppError (Except StatementError UserRow) × ProfileStorage :=
  match request.assignments with
  | .error e => (.ok (.error e), s)
  | .ok a =>
    match s.site.world.users.get? request.userId with
    | none => (.error (.database .rowNotFound), s)
    | some user =>
      let profile := (s.profiles request.userId).set a
      match s.site.updateUser request.userId request.name with
      | (.error e, site) => (.error e, { s with site := site })
      | (.ok (), site) =>
        (.ok (.ok ⟨{ user with name := request.name.getD user.name }, profile⟩),
          ⟨site, Function.update s.profiles request.userId profile⟩)

/-- The calls on the site, and the update with all its columns. -/
inductive ProfileCall where
  | site (c : SiteCall)
  | update (request : UpdateCurrentUserRequest)
  deriving DecidableEq

abbrev ProfileResp : ProfileCall → Type
  | .site c => SiteResp c
  | .update _ => Except StatementError UserRow

def profileExec : (c : ProfileCall) → ProfileStorage → Except AppError (ProfileResp c) × ProfileStorage
  | .site c, s => ((siteExec c s.site).1, { s with site := (siteExec c s.site).2 })
  | .update request, s => s.update request

def profileHandler : Handler ProfileCall ProfileResp AppError ProfileStorage where
  exec := profileExec
  fault
    | .site c => siteHandler.fault c
    | .update _ => .database .connection

/-! ### The service -/

/-- `UserError`, with the statements that cannot be run apart from what the
database reports of a row. -/
inductive UpdateError where
  | app (e : AppError)
  | statement (e : StatementError)
  deriving DecidableEq

structure UserResponse where
  id : Uuid
  name : String
  location : Option String
  readme : Option String
  links : List String
  displayName : Option String
  deriving DecidableEq

/-- `From<User>`. -/
def UserResponse.ofRow (row : UserRow) : UserResponse where
  id := row.user.id
  name := row.user.name
  location := row.profile.location.map Varchar.text
  readme := row.profile.readme
  links := row.profile.links
  displayName := row.profile.displayName.map Varchar.text

abbrev ProfileProg (α : Type) : Type := Prog ProfileCall ProfileResp AppError UpdateError α

/-- Calls on the site. -/
def onSite {α : Type} (p : SiteProg α) : ProfileProg α :=
  (p.mapCalls ProfileCall.site).mapResult (Except.mapError .app)

/-- The directory is moved before the row is written. -/
def moveOwner : Option (String × String) → SiteProg Unit
  | none => pure ()
  | some (old, new) => Site.ask (.renameOwner old new)

/-- The row has been refused: the directory is moved back, and a name that another
user has got by now is a conflict. -/
def refused : Option (String × String) → UpdateError → ProfileProg UserResponse
  | none, e => .fail e
  | some (old, new), e =>
    .call (.site (.renameOwner new old)) fun _ =>
      .fail (if e = .app (.database .uniqueViolation) then
        .app (.conflict "user name" s!"{new} is already taken") else e)

/-- The row is written, and the directory is moved back if it is refused. -/
def writeRow (rename : Option (String × String)) (request : UpdateCurrentUserRequest) :
    ProfileProg UserResponse :=
  .call (.update request) fun
    | .ok (.ok row) => .ret (UserResponse.ofRow row)
    | .ok (.error e) => refused rename (.statement e)
    | .error e => refused rename (.app e)

/-- `update_current_user`. -/
def updateCurrentUser (names : Names) (request : UpdateCurrentUserRequest) :
    ProfileProg UserResponse :=
  onSite (requestedRename names request.userId request.name) >>= fun rename =>
    onSite (moveOwner rename) >>= fun _ =>
      writeRow rename { request with name := rename.map Prod.snd }

/-! ### What it does to the site -/

theorem answersOn_site :
    AnswersOn (f := ProfileCall.site) profileHandler siteHandler ProfileStorage.site :=
  ⟨fun _ _ => rfl, fun _ _ => rfl, fun _ => rfl⟩

/-- A run of the one program next to a run of the other: they end alike and leave
the same site, but for a statement that cannot be run. -/
def Alike (x : Except UpdateError UserResponse × ProfileStorage)
    (y : Except AppError Unit × Storage) : Prop :=
  (∃ e, x.1 = .error (.statement e)) ∨
    (x.1.map (fun _ => ()) = y.1.mapError .app ∧ x.2.site = y.2)

variable {names : Names} {request : UpdateCurrentUserRequest} {s : ProfileStorage}

/-- The update writes to the site what `updateUser` does. -/
theorem site_update (s : ProfileStorage) (request : UpdateCurrentUserRequest) :
    (∃ e, s.update request = (.ok (.error e), s)) ∨
    (∃ e, (s.update request).1 = .error e ∧
      s.site.updateUser request.userId request.name = (.error e, (s.update request).2.site)) ∨
    ∃ row, (s.update request).1 = .ok (.ok row) ∧
      s.site.updateUser request.userId request.name = (.ok (), (s.update request).2.site) := by
  unfold ProfileStorage.update
  cases request.assignments with
  | error e => exact .inl ⟨e, rfl⟩
  | ok a =>
    refine .inr ?_
    dsimp only
    cases hget : s.site.world.users.get? request.userId with
    | none =>
      refine .inl ⟨_, rfl, ?_⟩
      unfold Storage.updateUser
      rw [hget]
    | some user =>
      dsimp only
      rcases hupdate : s.site.updateUser request.userId request.name with ⟨e | ⟨⟩, site⟩
      · exact .inl ⟨e, rfl, rfl⟩
      · exact .inr ⟨_, rfl, rfl⟩

theorem error_refused_statement : ∀ (rename : Option (String × String)) (e : StatementError)
    (plan : List Bool) (s : ProfileStorage),
    ∃ e', (run profileHandler (refused rename (.statement e)) plan s).1 = .error (.statement e')
  | none, e, _, _ => ⟨e, rfl⟩
  | some (old, new), e, plan, s => by
    refine ⟨e, ?_⟩
    simp only [refused, run, reduceCtorEq, ↓reduceIte]
    split_ifs <;> rfl

/-- The directory is moved back alike, and the error is the same. -/
theorem alike_refused (old new : String) (e : AppError) (plan : List Bool) (s : ProfileStorage) :
    Alike (run profileHandler (refused (some (old, new)) (.app e)) plan s)
      (run siteHandler (.call (.renameOwner new old) fun _ => .fail (renameError new e)) plan
        s.site) := by
  have he : (if UpdateError.app e = .app (.database .uniqueViolation) then
      .app (.conflict "user name" s!"{new} is already taken") else .app e) =
        UpdateError.app (renameError new e) := by
    unfold renameError
    simp only [UpdateError.app.injEq]
    split_ifs <;> rfl
  simp only [refused, he, run]
  split_ifs
  · exact .inr ⟨rfl, rfl⟩
  · exact .inr ⟨rfl, rfl⟩

theorem alike_writeRow (request : UpdateCurrentUserRequest) {rename : Option (String × String)}
    {k : Except AppError Unit → SiteProg Unit} (hok : k (.ok ()) = .ret ())
    (herr : ∀ e plan s, Alike (run profileHandler (refused rename (.app e)) plan s)
      (run siteHandler (k (.error e)) plan s.site)) (plan : List Bool) (s : ProfileStorage) :
    Alike (run profileHandler (writeRow rename request) plan s)
      (run siteHandler (.call (.updateUser request.userId request.name) k) plan s.site) := by
  have hprofile : profileHandler.exec (.update request) s = s.update request := rfl
  have hrow : siteHandler.exec (.updateUser request.userId request.name) s.site =
      s.site.updateUser request.userId request.name := rfl
  simp only [writeRow, run]
  by_cases hp : plan.headD false
  · rw [if_pos hp, if_pos hp]
    exact herr _ _ s
  rw [if_neg hp, if_neg hp, hprofile, hrow]
  rcases site_update s request with ⟨e, heq⟩ | ⟨e, he, hsite⟩ | ⟨row, hok', hsite⟩
  · rw [heq]
    exact .inl (error_refused_statement rename e _ s)
  · rw [he, hsite]
    exact herr e _ _
  · rw [hok', hsite, hok]
    exact .inr ⟨rfl, rfl⟩

/-- **The site.** But for a statement that cannot be run, the update of a profile
ends as the update of the name does and leaves the same site, whichever of its
calls fail. -/
theorem run_updateCurrentUser_site (names : Names) (request : UpdateCurrentUserRequest)
    (plan : List Bool) (s : ProfileStorage) :
    Alike (run profileHandler (updateCurrentUser names request) plan s)
      (run siteHandler (Site.updateCurrentUser names request.userId request.name) plan s.site) := by
  have hfail : ∀ (e : AppError) (s : ProfileStorage),
      Alike (.error (.app e), s) (.error e, s.site) := fun e s => .inr ⟨rfl, rfl⟩
  refine run_mapCalls_bind answersOn_site hfail fun rename plan s => ?_
  cases rename with
  | none =>
    refine alike_writeRow { request with name := none } rfl (fun e _ s => ?_) plan s
    exact hfail e s
  | some x =>
    obtain ⟨old, new⟩ := x
    refine run_mapCalls_bind answersOn_site hfail fun _ plan s => ?_
    refine alike_writeRow { request with name := some new } rfl (fun e plan s => ?_) plan s
    exact alike_refused old new e plan s

/-! ### Names after an update -/

/-- The request succeeds. -/
def Accepted (names : Names) (s : ProfileStorage) (request : UpdateCurrentUserRequest) : Prop :=
  ∃ user, (run profileHandler (updateCurrentUser names request) [] s).1 = .ok user

/-- The name that the request has is the user's. -/
def NamesCurrent (s : ProfileStorage) (request : UpdateCurrentUserRequest) : Prop :=
  ∃ user, s.site.world.users.get? request.userId = some user ∧ request.name = some user.name

/-- The look-up of a name finds every user's own row. -/
theorem isNameTaken_of_mem {w : World} {u : User} (hu : u ∈ w.users.rows) :
    w.isNameTaken u.name = true := by
  have hfound : (w.getUser u.name).isSome :=
    List.find?_isSome.mpr ⟨u, hu, decide_eq_true rfl⟩
  unfold World.isNameTaken
  rw [hfound, Bool.true_or]

theorem ensures_renameUser (caller : Uuid) (old new : String) (s : Storage) :
    Ensures siteHandler (fun _ s' => s'.world.isNameTaken new = true) (renameUser caller old new)
      s := by
  have hback : ∀ (e : AppError) (s : Storage),
      Ensures siteHandler (fun _ s' => s'.world.isNameTaken new = true)
        (.call (.renameOwner new old) fun _ => .fail (renameError new e) : SiteProg Unit) s :=
    fun _ _ => ⟨fun _ => ensures_fail, ensures_fail⟩
  unfold renameUser
  refine ensures_bind.mpr ?_
  cases hdirs : s.dirs.renameOwner old new with
  | none =>
    have hexec : siteHandler.exec (.renameOwner old new) s =
        (.error (.git (.git2Error "Directory not empty")), s) := by
      simp only [siteHandler, siteExec, hdirs]
    exact ensures_perform_error hexec
  | some dirs =>
    have hmove : siteHandler.exec (.renameOwner old new) s = (.ok (), { s with dirs := dirs }) := by
      simp only [siteHandler, siteExec, hdirs]
    refine (ensures_perform_ok hmove).mpr ?_
    refine ⟨fun _ => hback _ _, ?_⟩
    have hexec : siteHandler.exec (.updateUser caller (some new)) { s with dirs := dirs } =
        Storage.updateUser { s with dirs := dirs } caller (some new) := rfl
    rcases updateUser_cases { s with dirs := dirs } caller new with ⟨e, heq⟩ | ⟨users, heq, hnamed⟩
    · rw [hexec, heq]
      exact hback e _
    · rw [hexec, heq]
      exact fun _ _ => isNameTaken_of_mem ((hnamed.rows ⟨caller, new⟩).mpr (.inl rfl))

/-- A rename that succeeds leaves its name taken. -/
theorem ensures_isNameTaken (names : Names) (caller : Uuid) (new : String) (s : Storage) :
    Ensures siteHandler (fun _ s' => s'.world.isNameTaken new = true)
      (Site.updateCurrentUser names caller (some new)) s := by
  unfold Site.updateCurrentUser requestedRename
  dsimp only
  split_ifs with hvalid
  · exact ensures_fail
  rw [ensures_bind, ensures_bind]
  refine (ensures_perform_ok rfl).mpr ?_
  split_ifs with htaken
  · exact ensures_fail
  rw [ensures_bind]
  refine (ensures_perform_ok rfl).mpr ?_
  cases hget : s.world.users.get? caller with
  | none => exact ensures_fail
  | some user =>
    have hne : user.name ≠ new := by
      rintro rfl
      exact htaken (isNameTaken_of_mem (Table.mem_rows_of_get? hget))
    dsimp only
    rw [if_neg hne]
    exact ensures_ret.mpr (ensures_renameUser caller user.name new s)

/-- **A name that is taken**, by whomever, is refused, and nothing changes. -/
theorem run_of_taken (names : Names) {new : String} (hname : request.name = some new)
    (htaken : s.site.world.isNameTaken new = true) :
    ∃ e, run profileHandler (updateCurrentUser names request) [] s = (.error e, s) := by
  unfold updateCurrentUser requestedRename
  rw [hname]
  dsimp only
  split_ifs
  · exact ⟨_, rfl⟩
  · change ∃ e, run profileHandler
      (onSite (if s.site.world.isNameTaken new = true then _ else _) >>= _) [] s = _
    rw [if_pos htaken]
    exact ⟨_, rfl⟩

/-! ### Updates made again -/

/-- The request succeeds, and succeeds again and changes nothing then; and it moves
no directory if the name that it has is the user's. -/
def Idempotent (names : Names) (s : ProfileStorage) (request : UpdateCurrentUserRequest) : Prop :=
  Repeats profileHandler (updateCurrentUser names request) s ∧
    (NamesCurrent s request →
      (run profileHandler (updateCurrentUser names request) [] s).2.site.dirs = s.site.dirs)

/-- Without a name the row is written and nothing else is done. -/
theorem run_of_name_none (hname : request.name = none) :
    run profileHandler (updateCurrentUser names request) [] s =
      run profileHandler (writeRow none request) [] s := by
  obtain ⟨userId, name, location, readme, links, displayName⟩ := request
  cases hname
  rfl

/-- What an update without a name answers, if the statement can be run and finds the
row, and what it leaves. -/
theorem update_eq_ok_iff {row : UserRow} {t : ProfileStorage} (hname : request.name = none) :
    s.update request = (.ok (.ok row), t) ↔
      ∃ a user, request.assignments = .ok a ∧
        s.site.world.users.get? request.userId = some user ∧
        row = ⟨user, (s.profiles request.userId).set a⟩ ∧
        t = { s with profiles := Function.update s.profiles request.userId row.profile } := by
  unfold ProfileStorage.update Storage.updateUser
  rw [hname]
  cases request.assignments with
  | error e => simp
  | ok a =>
    cases hget : s.site.world.users.get? request.userId with
    | none => simp
    | some user =>
      simp only [Option.getD_none, Prod.mk.injEq, Except.ok.injEq]
      constructor
      · rintro ⟨rfl, rfl⟩
        exact ⟨a, user, rfl, rfl, rfl, rfl⟩
      · rintro ⟨_, _, rfl, huser, rfl, rfl⟩
        cases huser
        exact ⟨rfl, rfl⟩

/-- The row written again is as it was. -/
theorem update_again {row : UserRow} {t : ProfileStorage} (hname : request.name = none)
    (h : s.update request = (.ok (.ok row), t)) : t.update request = (.ok (.ok row), t) := by
  obtain ⟨a, user, ha, hget, rfl, rfl⟩ := (update_eq_ok_iff hname).mp h
  refine (update_eq_ok_iff hname).mpr ⟨a, user, ha, hget, ?_, ?_⟩
  · dsimp only
    rw [Function.update_self, Profile.set_set]
  · rw [Function.update_idem]

theorem run_writeRow_none (s : ProfileStorage) (request : UpdateCurrentUserRequest) :
    run profileHandler (writeRow none request) [] s =
      match s.update request with
      | (.ok (.ok row), t) => (.ok (UserResponse.ofRow row), t)
      | (.ok (.error e), t) => (.error (.statement e), t)
      | (.error e, t) => (.error (.app e), t) := by
  have hexec : profileHandler.exec (.update request) s = s.update request := rfl
  simp only [writeRow, run, List.headD_nil, Bool.false_eq_true, ↓reduceIte, hexec]
  rcases s.update request with ⟨e | e | row, t⟩ <;> rfl

/-- A request without a name that is accepted is accepted again. -/
theorem repeats_of_name_none (hname : request.name = none) (h : Accepted names s request) :
    Repeats profileHandler (updateCurrentUser names request) s := by
  obtain ⟨user, huser⟩ := h
  unfold Repeats
  simp only [run_of_name_none hname, run_writeRow_none] at huser ⊢
  rcases hupdate : s.update request with ⟨e | e | row, t⟩
  · rw [hupdate] at huser
    cases huser
  · rw [hupdate] at huser
    cases huser
  · refine ⟨UserResponse.ofRow row, UserResponse.ofRow row, t, rfl, ?_⟩
    rw [update_again hname hupdate]

/-- Where a request with a name is accepted, its name is taken from then on, and the
request made again is refused. -/
theorem not_repeats_of_name {new : String} (hname : request.name = some new) :
    ¬ Repeats profileHandler (updateCurrentUser names request) s := by
  rintro ⟨user, again, t, hfirst, hagain⟩
  have halike := run_updateCurrentUser_site names request [] s
  rw [hfirst, hname] at halike
  have htaken : t.site.world.isNameTaken new = true := by
    rcases halike with ⟨e, he⟩ | ⟨hok, hsite⟩
    · cases he
    · have hensures := ensures_iff.mp (ensures_isNameTaken names request.userId new s.site) []
      rw [hsite]
      exact hensures () (mapError_eq_ok.mp hok.symm)
  obtain ⟨e, he⟩ := run_of_taken names hname htaken
  rw [hagain] at he
  cases he

/-- **Updates made again.** A request that is accepted, or that has the user's own
name, can be made again without changing anything if and only if it has no name. -/
theorem updates_idempotent_iff (names : Names) (s : ProfileStorage)
    (request : UpdateCurrentUserRequest)
    (h : Accepted names s request ∨ NamesCurrent s request) :
    Idempotent names s request ↔ request.name = none := by
  constructor
  · intro hidem
    cases hname : request.name with
    | none => rfl
    | some new => exact absurd hidem.1 (not_repeats_of_name hname)
  · intro hname
    have hcurrent : ¬ NamesCurrent s request := by
      rintro ⟨user, -, huser⟩
      rw [hname] at huser
      cases huser
    exact ⟨repeats_of_name_none hname (h.resolve_right hcurrent), fun hc => absurd hc hcurrent⟩

/-- A user has signed up, and written a readme. -/
def signedUp : ProfileStorage where
  site := (run siteHandler (createUser ⟨1, 1⟩ []) [] ⟨emptyWorld, fun _ => none⟩).2
  profiles := fun _ => ⟨none, some "hello", [], none⟩

def setLocation : UpdateCurrentUserRequest := ⟨1, none, some "Zurich", none, none, none⟩

theorem updates_idempotent_setLocation : Idempotent anyName signedUp setLocation :=
  (updates_idempotent_iff anyName signedUp setLocation
    (.inl ⟨⟨1, World.handle 1, some "Zurich", some "hello", [], none⟩, by decide +kernel⟩)).mpr rfl

def renameToCarol : UpdateCurrentUserRequest := ⟨1, some "carol", none, none, none, none⟩

/-- Carol's own name is taken, by herself. -/
theorem not_updates_idempotent :
    Accepted anyName signedUp renameToCarol ∧ ¬ Idempotent anyName signedUp renameToCarol ∧
    NamesCurrent (run profileHandler (updateCurrentUser anyName renameToCarol) [] signedUp).2
      renameToCarol ∧
    ¬ Idempotent anyName
      (run profileHandler (updateCurrentUser anyName renameToCarol) [] signedUp).2 renameToCarol :=
  ⟨⟨⟨1, "carol", none, some "hello", [], none⟩, by decide +kernel⟩,
    fun h => not_repeats_of_name rfl h.1, ⟨⟨1, "carol"⟩, by decide +kernel, rfl⟩,
    fun h => not_repeats_of_name rfl h.1⟩

end Profiles
end Gitdot
