/-
# Where the git directories are

What is left of the site when its calls are forgotten: repositories that are
held, each by an owner under a name, and the directories. A repository is at
home in its owner's directory, and that is under the owner's name, or under the
name that a rename has moved it to ahead of the row (`place`).

`Housed` says that every held repository is at home. A rename moves the
directory, and then the row follows or the directory moves back; a repository
is made where its owner is and is in nobody's way; a directory that is removed
is nobody's home. Each keeps `Housed`, under what it needs: that nothing else
is moved to or from the names at the time.

Key definitions: `Holding`, `nameOf`, `place`, `Housed`.
Key theorems: `Housed.move`, `Housed.commit`, `Housed.back`, `Housed.make`,
`Housed.unmake`.
-/
import Gitdot.Server.Handles

namespace Gitdot
namespace Site

open Lib Keyed

/-! ### Directories -/

namespace Directories

variable {dirs dirs' : Directories} {old new owner repo : String} {id : Uuid}

theorem of_set (dirs : Directories) (owner o : String) (l : Option (List GitDirectory)) :
    (dirs.set owner l).of o = if o = owner then l.getD [] else dirs.of o := by
  unfold of set
  split_ifs <;> rfl

theorem of_set_self {l : Option (List GitDirectory)} : (dirs.set owner l).of owner = l.getD [] :=
  (of_set dirs owner owner l).trans (if_pos rfl)

theorem of_set_of_ne {o : String} {l : Option (List GitDirectory)} (h : o ≠ owner) :
    (dirs.set owner l).of o = dirs.of o :=
  (of_set dirs owner o l).trans (if_neg h)

theorem find_congr {o o' : String} (h : dirs.of o = dirs'.of o') (repo : String) :
    dirs.find o repo = dirs'.find o' repo := by
  unfold find
  rw [h]

theorem find_of_nil (h : dirs.of owner = []) (repo : String) : dirs.find owner repo = none := by
  unfold find
  rw [h]
  rfl

theorem of_of_none (h : dirs owner = none) : dirs.of owner = [] := by
  unfold of
  rw [h]
  rfl

/-- A directory that is moved leaves nothing. There was none, or the other one was
empty and has what was in it. -/
structure Shifted (dirs dirs' : Directories) (old new : String) : Prop where
  left : dirs'.of old = []
  other : ∀ o, o ≠ old → o ≠ new → dirs'.of o = dirs.of o
  moved : dirs old = none ∧ dirs' = dirs ∨ dirs.of new = [] ∧ dirs'.of new = dirs.of old

theorem shifted_of_renameOwner (hne : old ≠ new) (h : dirs.renameOwner old new = some dirs') :
    Shifted dirs dirs' old new := by
  unfold renameOwner at h
  split_ifs at h with hnone hempty
  · obtain rfl := Option.some.inj h
    have hnone := Option.isNone_iff_eq_none.mp hnone
    exact ⟨of_of_none hnone, fun _ _ _ => rfl, .inl ⟨hnone, rfl⟩⟩
  · obtain rfl := Option.some.inj h
    refine ⟨of_set_self, fun o ho hn => ?_, .inr ⟨List.isEmpty_iff.mp hempty, ?_⟩⟩
    · rw [of_set_of_ne ho, of_set_of_ne hn]
    · rw [of_set_of_ne hne.symm, of_set_self]
      rfl

/-- Into an empty directory everything moves. -/
theorem renameOwner_isSome (h : dirs.of new = []) : (dirs.renameOwner old new).isSome := by
  unfold renameOwner
  rw [h]
  split_ifs <;> simp_all

theorem of_createRepo (hnone : dirs.find owner repo = none) :
    (dirs.createRepo owner repo id).of owner = ⟨repo, id⟩ :: dirs.of owner := by
  unfold createRepo
  rw [of_set_self, hnone]
  rfl

theorem of_createRepo_of_ne {o : String} (h : o ≠ owner) :
    (dirs.createRepo owner repo id).of o = dirs.of o := of_set_of_ne h

/-- A directory that is made is there, and the others stay. -/
theorem find_createRepo (hnone : dirs.find owner repo = none) (o r : String) :
    (dirs.createRepo owner repo id).find o r =
      if o = owner ∧ r = repo then some ⟨repo, id⟩ else dirs.find o r := by
  by_cases ho : o = owner
  · obtain rfl := ho
    unfold find
    rw [of_createRepo hnone]
    by_cases hr : r = repo
    · rw [if_pos ⟨rfl, hr⟩, List.find?_cons_of_pos (by simp [hr])]
    · rw [if_neg (by simp [hr]), List.find?_cons_of_neg (by simpa using Ne.symm hr)]
  · rw [if_neg (by simp [ho])]
    exact find_congr (of_createRepo_of_ne ho) r

theorem of_deleteRepo (dirs : Directories) (owner repo o : String) : (dirs.deleteRepo owner repo).of o =
    if o = owner then (dirs.of owner).filter fun d => decide (d.name ≠ repo) else dirs.of o := by
  unfold deleteRepo
  rw [of_set]
  split_ifs
  · unfold of
    cases dirs owner <;> rfl
  · rfl

/-- A directory that is removed is gone, and the others stay. -/
theorem find_deleteRepo (dirs : Directories) (owner repo o r : String) :
    (dirs.deleteRepo owner repo).find o r =
      if o = owner ∧ r = repo then none else dirs.find o r := by
  unfold find
  rw [of_deleteRepo]
  by_cases ho : o = owner
  · obtain rfl := ho
    rw [if_pos rfl, List.find?_filter]
    by_cases hr : r = repo
    · rw [if_pos ⟨rfl, hr⟩]
      refine List.find?_eq_none.mpr fun d _ => ?_
      simp [hr]
    · rw [if_neg (by simp [hr])]
      refine congrArg (List.find? · _) (funext fun d => ?_)
      by_cases hd : d.name = r
      · simp [hd, hr]
      · simp [hd]
  · rw [if_neg ho, if_neg (by simp [ho])]

end Directories

/-! ### Places -/

/-- A repository as its row has it, or will have it: its owner, its name and its
id. -/
structure Holding where
  ownerType : RepositoryOwnerType
  ownerId : Uuid
  name : String
  id : Uuid
  deriving DecidableEq

/-- What a row holds. -/
def holdingOf (r : Repository) : Holding := ⟨r.ownerType, r.ownerId, r.name, r.id⟩

/-- The name of an owner. -/
def nameOf (w : World) : RepositoryOwnerType → Uuid → Option String
  | .user, id => (w.users.get? id).map User.name
  | .organization, id => (w.organizations.get? id).map Organization.name

/-- The names that users' directories have been moved to, ahead of their rows. -/
abbrev Ahead : Type := Uuid → Option String

/-- The directory of an owner. -/
def place (w : World) (ahead : Ahead) : RepositoryOwnerType → Uuid → Option String
  | .user, id => (nameOf w .user id).map (ahead id).getD
  | .organization, id => nameOf w .organization id

/-- The git directory of what is held is in the directory of its owner. -/
def AtHome (s : Storage) (ahead : Ahead) (h : Holding) : Prop :=
  ∃ owner, place s.world ahead h.ownerType h.ownerId = some owner ∧
    s.dirs.find owner h.name = some ⟨h.name, h.id⟩

/-- Everything held is at home; where a directory has been moved ahead, nothing
is left behind, nothing else goes to the same name, and nobody else holds
anything under it. -/
structure Housed (s : Storage) (ahead : Ahead) (held : Holding → Prop) : Prop where
  atHome : ∀ h, held h → AtHome s ahead h
  vacated : ∀ u ∈ s.world.users.rows, (ahead u.id).isSome → s.dirs.of u.name = []
  apart : ∀ i j new, ahead i = some new → ahead j = some new → i = j
  alone : ∀ i new, ahead i = some new → ∀ h, held h →
    nameOf s.world h.ownerType h.ownerId = some new → h.ownerType = .user ∧ h.ownerId = i

section Places

variable {w : World} {ahead : Ahead} {t : RepositoryOwnerType} {i : Uuid} {owner : String}

/-- A name leads to its owner. -/
theorem owner_of_name (hw : OneOwner w) {u : User} (hu : u ∈ w.users.rows)
    (h : nameOf w t i = some u.name) : t = .user ∧ i = u.id := by
  cases t with
  | user =>
    obtain ⟨v, hv, hname⟩ := Option.map_eq_some_iff.mp h
    obtain rfl := hw.unique.user v (Table.mem_rows_of_get? hv) u hu hname
    exact ⟨rfl, (Table.key_of_get? hv).symm⟩
  | organization =>
    obtain ⟨o, ho, hname⟩ := Option.map_eq_some_iff.mp h
    exact absurd ⟨⟨u, hu, rfl⟩, o, Table.mem_rows_of_get? ho, hname⟩ (hw.apart u.name)

/-- A name that is not taken is nobody's. -/
theorem nameOf_ne_of_free (h : w.isNameTaken owner = false) : nameOf w t i ≠ some owner := by
  obtain ⟨hnouser, hnoorg⟩ := Bool.or_eq_false_iff.mp h
  have husers : w.getUser owner = none := by simpa using hnouser
  have horgs : w.getOrganization owner = none := by simpa using hnoorg
  intro hname
  cases t with
  | user =>
    obtain ⟨u, hu, huname⟩ := Option.map_eq_some_iff.mp hname
    exact List.find?_eq_none.mp husers u (Table.mem_rows_of_get? hu) (decide_eq_true huname)
  | organization =>
    obtain ⟨o, ho, honame⟩ := Option.map_eq_some_iff.mp hname
    exact List.find?_eq_none.mp horgs o (Table.mem_rows_of_get? ho) (decide_eq_true honame)

/-- A directory is under its owner's name, or ahead of it. -/
theorem place_cases (h : place w ahead t i = some owner) :
    t = .user ∧ ahead i = some owner ∨
      nameOf w t i = some owner ∧ (t = .user → ahead i = none) := by
  cases t with
  | user =>
    obtain ⟨name, hname, howner⟩ := Option.map_eq_some_iff.mp h
    cases hahead : ahead i with
    | none =>
      rw [hahead] at howner
      obtain rfl : name = owner := howner
      exact .inr ⟨hname, fun _ => rfl⟩
    | some new =>
      rw [hahead] at howner
      obtain rfl : new = owner := howner
      exact .inl ⟨rfl, rfl⟩
  | organization => exact .inr ⟨h, nofun⟩

theorem place_user {u : User} (hu : u ∈ w.users.rows) :
    place w ahead .user u.id = some ((ahead u.id).getD u.name) := by
  have hget : w.users.get? u.id = some u := Table.get?_key hu
  change ((w.users.get? u.id).map User.name).map (ahead u.id).getD = _
  rw [hget]
  rfl

/-- A directory that has not been moved ahead is under its owner's name. -/
theorem place_of_none (h : t = .user → ahead i = none) : place w ahead t i = nameOf w t i := by
  cases t with
  | user =>
    change (nameOf w .user i).map (ahead i).getD = nameOf w .user i
    rw [h rfl]
    exact Option.map_id'
  | organization => rfl

theorem place_congr {w' : World} {ahead' : Ahead} (hname : nameOf w' t i = nameOf w t i)
    (hahead : t = .user → ahead' i = ahead i) : place w' ahead' t i = place w ahead t i := by
  cases t with
  | user =>
    change (nameOf w' .user i).map (ahead' i).getD = (nameOf w .user i).map (ahead i).getD
    rw [hname, hahead rfl]
  | organization => exact hname

theorem update_eq_some {u : Uuid} {v : Option String} {name : String} :
    Function.update ahead u v i = some name ↔ i = u ∧ v = some name ∨ i ≠ u ∧ ahead i = some name := by
  rcases eq_or_ne i u with rfl | hne
  · simp
  · simp [hne]

end Places

/-- No directory is on its way from the name, or has been moved to it. -/
structure Clear (w : World) (ahead : Ahead) (name : String) : Prop where
  notTo : ∀ i, ahead i ≠ some name
  notFrom : ∀ u ∈ w.users.rows, (ahead u.id).isSome → u.name ≠ name

/-- Under a name that nothing is moved from is who has it. -/
theorem Clear.place {w : World} {ahead : Ahead} {name : String} {t : RepositoryOwnerType} {i : Uuid}
    (h : Clear w ahead name) (hname : nameOf w t i = some name) : place w ahead t i = some name := by
  refine (place_of_none fun htype => ?_).trans hname
  rw [htype] at hname
  obtain ⟨v, hv, hvname⟩ := Option.map_eq_some_iff.mp hname
  rw [← Table.key_of_get? hv]
  by_contra hsome
  exact h.notFrom v (Table.mem_rows_of_get? hv) (Option.isSome_iff_ne_none.mpr hsome) hvname

/-! ### What keeps them at home -/

section Housed

variable {s : Storage} {ahead : Ahead} {held held' : Holding → Prop} {u : User} {old new : String}
  {dirs : Directories}

theorem Housed.mono (h : Housed s ahead held) (hsub : ∀ x, held' x → held x) : Housed s ahead held' :=
  ⟨fun x hx => h.atHome x (hsub x hx), h.vacated, h.apart,
    fun i new hi x hx => h.alone i new hi x (hsub x hx)⟩

/-- Only the owners and the directories count. -/
theorem Housed.congr {t : Storage} (h : Housed s ahead held) (husers : t.world.users = s.world.users)
    (horgs : t.world.organizations = s.world.organizations) (hdirs : t.dirs = s.dirs) :
    Housed t ahead held := by
  have hname : ∀ k i, nameOf t.world k i = nameOf s.world k i := by
    intro k i
    cases k with
    | user =>
      change (t.world.users.get? i).map User.name = _
      rw [husers]
      rfl
    | organization =>
      change (t.world.organizations.get? i).map Organization.name = _
      rw [horgs]
      rfl
  refine ⟨fun x hx => ?_, fun v hv hvahead => ?_, h.apart, fun i new hi x hx hxname => ?_⟩
  · obtain ⟨owner, hplace, hfind⟩ := h.atHome x hx
    refine ⟨owner, (place_congr (hname _ _) fun _ => rfl).trans hplace, ?_⟩
    rw [hdirs]
    exact hfind
  · rw [husers] at hv
    rw [hdirs]
    exact h.vacated v hv hvahead
  · exact h.alone i new hi x hx ((hname _ _).symm.trans hxname)

/-- Nothing is at home in an empty directory. -/
theorem AtHome.ne_nil {x : Holding} (hx : AtHome s ahead x) {owner : String}
    (hplace : place s.world ahead x.ownerType x.ownerId = some owner) : s.dirs.of owner ≠ [] := by
  obtain ⟨owner', hplace', hfind⟩ := hx
  rw [hplace] at hplace'
  obtain rfl := Option.some.inj hplace'
  intro hnil
  rw [Directories.find_of_nil hnil] at hfind
  cases hfind

/-- Who has moved from one name to another is at home there, if nobody else was
under either of them. -/
theorem atHome_shift {ahead' : Ahead} (hat : ∀ x, held x → AtHome s ahead x)
    (hne : old ≠ new) (hmove : s.dirs.renameOwner old new = some dirs)
    (hplace : place s.world ahead .user u.id = some old)
    (hplace' : place s.world ahead' .user u.id = some new)
    (hother : ∀ i, i ≠ u.id → ahead' i = ahead i)
    (hold : ∀ x, held x → place s.world ahead x.ownerType x.ownerId = some old →
      x.ownerType = .user ∧ x.ownerId = u.id)
    (hnew : ∀ x, held x → place s.world ahead x.ownerType x.ownerId ≠ some new) :
    ∀ x, held x → AtHome { s with dirs := dirs } ahead' x := by
  intro x hx
  have hshifted := Directories.shifted_of_renameOwner hne hmove
  obtain ⟨owner, howner, hfind⟩ := hat x hx
  by_cases hxu : x.ownerType = .user ∧ x.ownerId = u.id
  · rw [hxu.1, hxu.2, hplace] at howner
    obtain rfl := Option.some.inj howner
    refine ⟨new, by rw [hxu.1, hxu.2]; exact hplace', ?_⟩
    rcases hshifted.moved with ⟨hnone, -⟩ | ⟨-, hof⟩
    · rw [Directories.find_of_nil (Directories.of_of_none hnone)] at hfind
      cases hfind
    · exact (Directories.find_congr hof x.name).trans hfind
  · refine ⟨owner, ?_, ?_⟩
    · refine (place_congr rfl fun htype => ?_).trans howner
      exact hother _ fun hid => hxu ⟨htype, hid⟩
    · have hne₁ : owner ≠ old := fun heq => hxu (hold x hx (heq ▸ howner))
      have hne₂ : owner ≠ new := fun heq => hnew x hx (heq ▸ howner)
      exact (Directories.find_congr (hshifted.other owner hne₁ hne₂) x.name).trans hfind

/-- **Moved.** The directory of a user goes ahead of the row. -/
theorem Housed.move (h : Housed s ahead held) (hw : OneOwner s.world) (hu : u ∈ s.world.users.rows)
    (hne : u.name ≠ new) (hmove : s.dirs.renameOwner u.name new = some dirs)
    (hahead : ahead u.id = none)
    (hto : ∀ i, ahead i ≠ some u.name) (hnew : Clear s.world ahead new)
    (hfree : s.dirs u.name = none → ∀ t i, nameOf s.world t i ≠ some new) :
    Housed { s with dirs := dirs } (Function.update ahead u.id (some new)) held := by
  have hshifted := Directories.shifted_of_renameOwner hne hmove
  have hplace : place s.world ahead .user u.id = some u.name := by
    rw [place_user hu, hahead]
    rfl
  have hplace' : place s.world (Function.update ahead u.id (some new)) .user u.id = some new := by
    rw [place_user hu, Function.update_self]
    rfl
  have hold : ∀ x, held x → place s.world ahead x.ownerType x.ownerId = some u.name →
      x.ownerType = .user ∧ x.ownerId = u.id := by
    intro x _ hx
    rcases place_cases hx with ⟨-, hx⟩ | ⟨hx, -⟩
    · exact absurd hx (hto _)
    · exact owner_of_name hw hu hx
  have hnobody : ∀ x, held x → place s.world ahead x.ownerType x.ownerId ≠ some new := by
    intro x hx hxnew
    rcases hshifted.moved with ⟨hnone, -⟩ | ⟨hempty, -⟩
    · rcases place_cases hxnew with ⟨-, hx⟩ | ⟨hx, -⟩
      · exact hnew.notTo _ hx
      · exact hfree hnone _ _ hx
    · exact (h.atHome x hx).ne_nil hxnew hempty
  refine ⟨atHome_shift h.atHome hne hmove hplace hplace' (fun i hi => Function.update_of_ne hi _ _)
    hold hnobody, fun v hv hvahead => ?_, fun i j name hi hj => ?_, fun i name hi x hx hname => ?_⟩
  · obtain ⟨name, hname⟩ := Option.isSome_iff_exists.mp hvahead
    rcases update_eq_some.mp hname with ⟨hvu, -⟩ | ⟨hvu, hname⟩
    · have hget := Table.get?_key hv
      rw [key_user, hvu] at hget
      obtain rfl := Option.some.inj (hget.symm.trans (Table.get?_key hu))
      exact hshifted.left
    · have hvsome : (ahead v.id).isSome := Option.isSome_iff_exists.mpr ⟨name, hname⟩
      have hne₁ : v.name ≠ u.name := fun heq => hvu (congrArg User.id (hw.unique.user v hv u hu heq))
      exact (hshifted.other v.name hne₁ (hnew.notFrom v hv hvsome)).trans (h.vacated v hv hvsome)
  · rcases update_eq_some.mp hi with ⟨hiu, hname⟩ | ⟨-, hi⟩ <;>
      rcases update_eq_some.mp hj with ⟨hju, hname'⟩ | ⟨-, hj⟩
    · exact hiu.trans hju.symm
    · exact absurd (hj.trans hname.symm) (hnew.notTo j)
    · exact absurd (hi.trans hname'.symm) (hnew.notTo i)
    · exact h.apart i j name hi hj
  · rcases update_eq_some.mp hi with ⟨-, heq⟩ | ⟨-, hi⟩
    · obtain rfl := Option.some.inj heq
      exact absurd (hnew.place hname) (hnobody x hx)
    · exact h.alone i name hi x hx hname

/-- **Moved back.** The directory of a user returns to the row. -/
theorem Housed.back (h : Housed s ahead held) (hw : OneOwner s.world) (hu : u ∈ s.world.users.rows)
    (hne : u.name ≠ new) (hmove : s.dirs.renameOwner new u.name = some dirs)
    (hahead : ahead u.id = some new) :
    Housed { s with dirs := dirs } (Function.update ahead u.id none) held := by
  have hshifted := Directories.shifted_of_renameOwner hne.symm hmove
  have hleft : s.dirs.of u.name = [] := h.vacated u hu (by simp [hahead])
  have hplace : place s.world ahead .user u.id = some new := by
    rw [place_user hu, hahead]
    rfl
  have hplace' : place s.world (Function.update ahead u.id none) .user u.id = some u.name := by
    rw [place_user hu, Function.update_self]
    rfl
  have hold : ∀ x, held x → place s.world ahead x.ownerType x.ownerId = some new →
      x.ownerType = .user ∧ x.ownerId = u.id := by
    intro x hx hxnew
    rcases place_cases hxnew with ⟨htype, hxahead⟩ | ⟨hname, -⟩
    · exact ⟨htype, h.apart _ _ _ hxahead hahead⟩
    · exact h.alone u.id new hahead x hx hname
  refine ⟨atHome_shift h.atHome hne.symm hmove hplace hplace'
    (fun i hi => Function.update_of_ne hi _ _) hold fun x hx hxold => ?_,
    fun v hv hvahead => ?_, fun i j name hi hj => ?_, fun i name hi x hx hname => ?_⟩
  · exact (h.atHome x hx).ne_nil hxold hleft
  · obtain ⟨name, hname⟩ := Option.isSome_iff_exists.mp hvahead
    obtain ⟨hvu, hname⟩ := (update_eq_some.mp hname).resolve_left (by simp)
    have hne₁ : v.name ≠ u.name := fun heq => hvu (congrArg User.id (hw.unique.user v hv u hu heq))
    rcases eq_or_ne v.name new with hvn | hne₂
    · rw [hvn]
      exact hshifted.left
    · exact (hshifted.other v.name hne₂ hne₁).trans
        (h.vacated v hv (Option.isSome_iff_exists.mpr ⟨name, hname⟩))
  · obtain ⟨-, hi⟩ := (update_eq_some.mp hi).resolve_left (by simp)
    obtain ⟨-, hj⟩ := (update_eq_some.mp hj).resolve_left (by simp)
    exact h.apart i j name hi hj
  · obtain ⟨-, hi⟩ := (update_eq_some.mp hi).resolve_left (by simp)
    exact h.alone i name hi x hx hname

/-- What a user that has been given a name is called, and the others. -/
theorem nameOf_named {w w' : World} {id : Uuid} (h : Named w w' id new)
    (horgs : w'.organizations = w.organizations) :
    nameOf w' .user id = some new ∧
      ∀ t i, ¬ (t = .user ∧ i = id) → nameOf w' t i = nameOf w t i := by
  constructor
  · have hget : w'.users.get? id = some ⟨id, new⟩ :=
      Table.get?_eq_some_iff.mpr ⟨(h.rows _).mpr (.inl rfl), rfl⟩
    change (w'.users.get? id).map User.name = some new
    rw [hget]
    rfl
  · intro t i hti
    cases t with
    | user =>
      have hne : i ≠ id := fun heq => hti ⟨rfl, heq⟩
      have hget : w'.users.get? i = w.users.get? i := by
        ext v
        rw [Table.get?_eq_some_iff, Table.get?_eq_some_iff, h.rows]
        constructor
        · rintro ⟨rfl | ⟨hv, -⟩, hkey⟩
          · exact absurd hkey.symm hne
          · exact ⟨hv, hkey⟩
        · rintro ⟨hv, hkey⟩
          exact ⟨.inr ⟨hv, fun heq => hne (hkey.symm.trans heq)⟩, hkey⟩
      change (w'.users.get? i).map User.name = _
      rw [hget]
      rfl
    | organization =>
      change (w'.organizations.get? i).map Organization.name = _
      rw [horgs]
      rfl

/-- **Followed.** The row of a user follows the directory. -/
theorem Housed.commit {w' : World} {id : Uuid} (h : Housed s ahead held)
    (hnamed : Named s.world w' id new) (horgs : w'.organizations = s.world.organizations)
    (hahead : ahead id = some new) :
    Housed { s with world := w' } (Function.update ahead id none) held := by
  obtain ⟨hname, hother⟩ := nameOf_named hnamed horgs
  refine ⟨fun x hx => ?_, fun v hv hvahead => ?_, fun i j name hi hj => ?_,
    fun i name hi x hx hxname => ?_⟩
  · obtain ⟨owner, hplace, hfind⟩ := h.atHome x hx
    by_cases hxu : x.ownerType = .user ∧ x.ownerId = id
    · refine ⟨owner, ?_, hfind⟩
      rw [hxu.1, hxu.2] at hplace ⊢
      rcases place_cases hplace with ⟨-, howner⟩ | ⟨-, hnone⟩
      · refine (place_of_none fun _ => Function.update_self _ _ _).trans ?_
        rw [hname, ← hahead, howner]
      · rw [hnone rfl] at hahead
        cases hahead
    · refine ⟨owner, (place_congr (hother _ _ hxu) fun htype => ?_).trans hplace, hfind⟩
      exact Function.update_of_ne (fun heq => hxu ⟨htype, heq⟩) _ _
  · obtain ⟨name, hvname⟩ := Option.isSome_iff_exists.mp hvahead
    obtain ⟨hvid, hvname⟩ := (update_eq_some.mp hvname).resolve_left (by simp)
    have hvrow : v ∈ s.world.users.rows := by
      rcases (hnamed.rows v).mp hv with rfl | ⟨hv, -⟩
      · exact absurd rfl hvid
      · exact hv
    exact h.vacated v hvrow (Option.isSome_iff_exists.mpr ⟨name, hvname⟩)
  · obtain ⟨-, hi⟩ := (update_eq_some.mp hi).resolve_left (by simp)
    obtain ⟨-, hj⟩ := (update_eq_some.mp hj).resolve_left (by simp)
    exact h.apart i j name hi hj
  · obtain ⟨hiu, hi⟩ := (update_eq_some.mp hi).resolve_left (by simp)
    by_cases hxu : x.ownerType = .user ∧ x.ownerId = id
    · change nameOf w' x.ownerType x.ownerId = some name at hxname
      rw [hxu.1, hxu.2, hname] at hxname
      rw [← Option.some.inj hxname] at hi
      exact absurd (h.apart _ _ _ hi hahead) hiu
    · exact h.alone i name hi x hx ((hother _ _ hxu).symm.trans hxname)

/-- **Made.** A directory where its owner is. -/
theorem Housed.make {x : Holding} (h : Housed s ahead held) {owner : String}
    (hname : nameOf s.world x.ownerType x.ownerId = some owner)
    (hnone : s.dirs.find owner x.name = none) (hclear : Clear s.world ahead owner) :
    Housed { s with dirs := s.dirs.createRepo owner x.name x.id } ahead
      fun y => y = x ∨ held y := by
  refine ⟨fun y hy => ?_, fun v hv hvahead => ?_, h.apart, fun i name hi y hy hyname => ?_⟩
  · rcases hy with rfl | hy
    · exact ⟨owner, hclear.place hname, (Directories.find_createRepo hnone _ _).trans (if_pos ⟨rfl, rfl⟩)⟩
    · obtain ⟨owner', hplace', hfind⟩ := h.atHome y hy
      refine ⟨owner', hplace', (Directories.find_createRepo hnone _ _).trans ?_⟩
      rw [if_neg, hfind]
      rintro ⟨rfl, hyx⟩
      rw [hyx, hnone] at hfind
      cases hfind
  · exact (Directories.of_createRepo_of_ne (hclear.notFrom v hv hvahead)).trans
      (h.vacated v hv hvahead)
  · rcases hy with rfl | hy
    · change nameOf s.world y.ownerType y.ownerId = some name at hyname
      rw [hname] at hyname
      rw [← Option.some.inj hyname] at hi
      exact absurd hi (hclear.notTo i)
    · exact h.alone i name hi y hy hyname

/-- **Removed.** A directory that is nobody's home. -/
theorem Housed.unmake {owner repo : String} (h : Housed s ahead held)
    (hnot : ∀ d, s.dirs.find owner repo = some d → ∀ x, held x → x.id ≠ d.madeFor) :
    Housed { s with dirs := s.dirs.deleteRepo owner repo } ahead held := by
  refine ⟨fun x hx => ?_, fun v hv hvahead => ?_, h.apart, h.alone⟩
  · obtain ⟨owner', hplace, hfind⟩ := h.atHome x hx
    refine ⟨owner', hplace, (Directories.find_deleteRepo _ _ _ _ _).trans ?_⟩
    rw [if_neg, hfind]
    rintro ⟨rfl, rfl⟩
    exact hnot _ hfind x hx rfl
  · have hnil := h.vacated v hv hvahead
    change (s.dirs.deleteRepo owner repo).of v.name = []
    rw [Directories.of_deleteRepo]
    split_ifs with heq
    · rw [← heq, hnil]
      rfl
    · exact hnil

end Housed

end Site
end Gitdot
