/-
# Directories on their way

Each request is looked at by what it has seen (`requests`). In motion are the
directories that renames have moved and whose rows have not followed, and held
are the rows, but for those whose directory a deletion has removed, and the
repositories that have a directory and no row yet. Every repository that is held
is at home in its owner's directory, where the motions have moved it (`Home`),
and each call keeps that under what it needs of the other requests.

Requests make repositories under ids of their own, so what is removed under such
an id is nobody else's (`Ids`).

Key definitions: `requests`, `motions`, `Held`, `Linked`, `Home`, `Ids`.
Key theorems: `Home.quiet`, `home_renameOwner`, `home_updateUser`,
`home_renameBack`, `home_createRepo`, `home_insertRepository`, `home_deleteRepo`,
`Ids.step`.
-/
import Gitdot.Server.Underway

namespace Gitdot
namespace Site

open Lib Prog Keyed

/-! ### Requests -/

/-- What each request is, and what it has seen. -/
abbrev Requests : Type := ℕ → Option (SiteOp × List SiteEvent)

def requests (P : SitePool) : Requests := fun n => P.threads[n]?.map fun t => (t.op, seen n P.sys.log)

/-- A directory that was moved. -/
structure Motion where
  user : Uuid
  old : String
  new : String

def motion : SiteOp × List SiteEvent → Option Motion
  | (.updateCurrentUser id _, seen) => (moved seen).map fun x => ⟨id, x.1, x.2⟩
  | _ => none

def motions (q : Requests) : ℕ → Option Motion := fun n => (q n).bind motion

/-- The repository that a request is making. -/
def holding (op : SiteOp) (seen : List SiteEvent) : Option Holding :=
  (planned op).bind fun p => (plannedOwner op seen).map fun i => ⟨p.ownerType, i, p.name, p.id⟩

/-- A row whose directory no deletion has removed, or a repository that is being
made. -/
def Held (s : Storage) (q : Requests) (h : Holding) : Prop :=
  (∃ r ∈ s.world.repositories.rows, holdingOf r = h ∧
    ∀ n x, q n = some x → removed x.2 ≠ some r.id) ∨
  ∃ n x, q n = some x ∧ making x.2 = true ∧ holding x.1 x.2 = some h

/-- The directories that are ahead of their rows are those in motion, each moved by
one request and from the name that the row has. -/
structure Linked (w : World) (mv : ℕ → Option Motion) (ahead : Ahead) : Prop where
  ahead_iff : ∀ i new, ahead i = some new ↔ ∃ n old, mv n = some ⟨i, old, new⟩
  one : ∀ n m x y, mv n = some x → mv m = some y → x.user = y.user → n = m
  behind : ∀ n x, mv n = some x → nameOf w .user x.user = some x.old

/-- Every repository that is held is at home. -/
def Home (s : Storage) (q : Requests) : Prop :=
  ∃ ahead, Linked s.world (motions q) ahead ∧ Housed s ahead (Held s q)

section Requests

variable {q : Requests} {n : ℕ} {op : SiteOp} {seen : List SiteEvent} {e : SiteEvent}
  {s s' : Storage} {w w' : World} {mv : ℕ → Option Motion} {ahead : Ahead} {x : Motion}

/-- Which of the requests has changed. -/
theorem update_cases {m : ℕ} {r y : SiteOp × List SiteEvent}
    (h : Function.update q n (some r) m = some y) : m = n ∧ y = r ∨ m ≠ n ∧ q m = some y := by
  rcases eq_or_ne m n with rfl | hne
  · rw [Function.update_self] at h
    exact .inl ⟨rfl, (Option.some.inj h).symm⟩
  · rw [Function.update_of_ne hne] at h
    exact .inr ⟨hne, h⟩

theorem motions_update {r : SiteOp × List SiteEvent} :
    motions (Function.update q n (some r)) = Function.update (motions q) n (motion r) := by
  funext m
  unfold motions
  rcases eq_or_ne m n with rfl | hne
  · rw [Function.update_self, Function.update_self]
    rfl
  · rw [Function.update_of_ne hne, Function.update_of_ne hne]

theorem motions_of_eq {r : SiteOp × List SiteEvent} (h : q n = some r) : motions q n = motion r := by
  unfold motions
  rw [h]
  rfl

theorem Linked.congr (h : Linked w mv ahead) (hname : ∀ i, nameOf w' .user i = nameOf w .user i) :
    Linked w' mv ahead :=
  ⟨h.ahead_iff, h.one, fun n x hx => (hname _).trans (h.behind n x hx)⟩

/-- A directory starts to move. -/
theorem Linked.set (h : Linked w mv ahead) (hn : mv n = none) (hi : ahead x.user = none)
    (hname : nameOf w .user x.user = some x.old) :
    Linked w (Function.update mv n (some x)) (Function.update ahead x.user (some x.new)) := by
  have hnot : ∀ m y, mv m = some y → y.user ≠ x.user := by
    intro m y hm heq
    have hsome := (h.ahead_iff y.user y.new).mpr ⟨m, y.old, hm⟩
    rw [heq, hi] at hsome
    cases hsome
  have hcases : ∀ m y, Function.update mv n (some x) m = some y ↔ m = n ∧ x = y ∨ m ≠ n ∧ mv m = some y := by
    intro m y
    rcases eq_or_ne m n with rfl | hne
    · simp
    · simp [hne]
  refine ⟨fun i new => ?_, fun m m' y y' hm hm' huser => ?_, fun m y hm => ?_⟩
  · rw [update_eq_some]
    constructor
    · rintro (⟨rfl, hnew⟩ | ⟨-, hahead⟩)
      · obtain rfl := Option.some.inj hnew
        exact ⟨n, x.old, (hcases _ _).mpr (.inl ⟨rfl, rfl⟩)⟩
      · obtain ⟨m, old, hm⟩ := (h.ahead_iff i new).mp hahead
        refine ⟨m, old, (hcases _ _).mpr (.inr ⟨?_, hm⟩)⟩
        rintro rfl
        rw [hn] at hm
        cases hm
    · rintro ⟨m, old, hm⟩
      rcases (hcases _ _).mp hm with ⟨-, rfl⟩ | ⟨-, hm⟩
      · exact .inl ⟨rfl, rfl⟩
      · exact .inr ⟨hnot m _ hm, (h.ahead_iff i new).mpr ⟨m, old, hm⟩⟩
  · rcases (hcases _ _).mp hm with ⟨hmn, rfl⟩ | ⟨-, hold⟩ <;>
      rcases (hcases _ _).mp hm' with ⟨hmn', rfl⟩ | ⟨-, hold'⟩
    · exact hmn.trans hmn'.symm
    · exact absurd huser.symm (hnot _ _ hold')
    · exact absurd huser (hnot _ _ hold)
    · exact h.one m m' y y' hold hold' huser
  · rcases (hcases _ _).mp hm with ⟨-, rfl⟩ | ⟨-, hm⟩
    · exact hname
    · exact h.behind m y hm

/-- A directory has arrived. -/
theorem Linked.clear (h : Linked w mv ahead) (hn : mv n = some x)
    (hname : ∀ i, i ≠ x.user → nameOf w' .user i = nameOf w .user i) :
    Linked w' (Function.update mv n none) (Function.update ahead x.user none) := by
  have hcases : ∀ m y, Function.update mv n none m = some y ↔ m ≠ n ∧ mv m = some y := by
    intro m y
    rcases eq_or_ne m n with rfl | hne
    · simp
    · simp [hne]
  have hother : ∀ m y, m ≠ n → mv m = some y → y.user ≠ x.user := fun m y hne hm huser =>
    hne (h.one m n y x hm hn huser)
  refine ⟨fun i new => ?_, fun m m' y y' hm hm' huser => ?_, fun m y hm => ?_⟩
  · rw [update_eq_some]
    constructor
    · rintro (⟨-, hnew⟩ | ⟨hi, hahead⟩)
      · cases hnew
      · obtain ⟨m, old, hm⟩ := (h.ahead_iff i new).mp hahead
        refine ⟨m, old, (hcases _ _).mpr ⟨?_, hm⟩⟩
        rintro rfl
        rw [hn] at hm
        cases hm
        exact hi rfl
    · rintro ⟨m, old, hm⟩
      obtain ⟨hne, hm⟩ := (hcases _ _).mp hm
      exact .inr ⟨hother m _ hne hm, (h.ahead_iff i new).mpr ⟨m, old, hm⟩⟩
  · exact h.one m m' y y' ((hcases _ _).mp hm).2 ((hcases _ _).mp hm').2 huser
  · obtain ⟨hne, hm⟩ := (hcases _ _).mp hm
    exact (hname _ (hother m y hne hm)).trans (h.behind m y hm)

/-- What is held after a call: what was, what was being made, and what is now. -/
theorem held_of_update (extra : Holding → Prop) (hq : q n = some (op, seen))
    (hrows : ∀ r ∈ s'.world.repositories.rows, removed (e :: seen) ≠ some r.id →
      r ∈ s.world.repositories.rows ∧ removed seen ≠ some r.id ∨
        making seen = true ∧ holding op seen = some (holdingOf r))
    (hmaking : making (e :: seen) = true → ∀ h, holding op (e :: seen) = some h →
      making seen = true ∧ holding op seen = some h ∨ extra h) :
    ∀ h, Held s' (Function.update q n (some (op, e :: seen))) h → extra h ∨ Held s q h := by
  have hself : Function.update q n (some (op, e :: seen)) n = some (op, e :: seen) :=
    Function.update_self _ _ _
  have hother : ∀ m x, m ≠ n → q m = some x →
      Function.update q n (some (op, e :: seen)) m = some x := fun m x hne hm =>
    (Function.update_of_ne hne _ _).trans hm
  rintro h (⟨r, hr, rfl, hnot⟩ | ⟨m, x, hm, hmk, hh⟩)
  · right
    rcases hrows r hr (hnot n _ hself) with ⟨hrow, hrem⟩ | hmk
    · refine .inl ⟨r, hrow, rfl, fun m x hm => ?_⟩
      rcases eq_or_ne m n with rfl | hne
      · rw [hq] at hm
        obtain rfl := Option.some.inj hm
        exact hrem
      · exact hnot m x (hother m x hne hm)
    · exact .inr ⟨n, _, hq, hmk⟩
  · rcases eq_or_ne m n with rfl | hne
    · rw [hself] at hm
      obtain rfl := Option.some.inj hm
      rcases hmaking hmk h hh with hold | hextra
      · exact .inr (.inr ⟨m, _, hq, hold⟩)
      · exact .inl hextra
    · rw [Function.update_of_ne hne] at hm
      exact .inr (.inr ⟨m, x, hm, hmk, hh⟩)

/-- A name that no motion is from or to. -/
theorem clear_of_still {name : String} (h : Linked w mv ahead)
    (hstill : ∀ n x, mv n = some x → x.old ≠ name ∧ x.new ≠ name) : Clear w ahead name := by
  refine ⟨fun i hi => ?_, fun u hu hahead => ?_⟩
  · obtain ⟨n, old, hn⟩ := (h.ahead_iff i name).mp hi
    exact (hstill n _ hn).2 rfl
  · obtain ⟨new, hnew⟩ := Option.isSome_iff_exists.mp hahead
    obtain ⟨n, old, hn⟩ := (h.ahead_iff u.id new).mp hnew
    have hget : w.users.get? u.id = some u := Table.get?_key hu
    have hname : (w.users.get? u.id).map User.name = some old := h.behind n _ hn
    rw [hget] at hname
    obtain rfl := Option.some.inj hname
    exact (hstill n _ hn).1

/-- A call that moves nothing. -/
theorem Home.keep (h : Home s q) (hq : q n = some (op, seen))
    (hm : motion (op, e :: seen) = motion (op, seen))
    (husers : s'.world.users = s.world.users)
    (hhoused : ∀ ahead, Linked s.world (motions q) ahead → Housed s ahead (Held s q) →
      Housed s' ahead (Held s' (Function.update q n (some (op, e :: seen))))) :
    Home s' (Function.update q n (some (op, e :: seen))) := by
  obtain ⟨ahead, hlinked, hheld⟩ := h
  refine ⟨ahead, ?_, hhoused ahead hlinked hheld⟩
  rw [motions_update, hm, ← motions_of_eq hq, Function.update_eq_self]
  refine hlinked.congr fun i => ?_
  change (s'.world.users.get? i).map User.name = _
  rw [husers]
  rfl

/-- A call that changes rows only. -/
theorem Home.rows (h : Home s q) (hq : q n = some (op, seen))
    (hm : motion (op, e :: seen) = motion (op, seen))
    (husers : s'.world.users = s.world.users)
    (horgs : s'.world.organizations = s.world.organizations) (hdirs : s'.dirs = s.dirs)
    (hrows : ∀ r ∈ s'.world.repositories.rows, removed (e :: seen) ≠ some r.id →
      r ∈ s.world.repositories.rows ∧ removed seen ≠ some r.id ∨
        making seen = true ∧ holding op seen = some (holdingOf r))
    (hmaking : making (e :: seen) = true → making seen = true ∧
      holding op (e :: seen) = holding op seen) :
    Home s' (Function.update q n (some (op, e :: seen))) := by
  refine h.keep hq hm husers fun ahead _ hh => (hh.mono fun x hx => ?_).congr husers horgs hdirs
  have hcases := held_of_update (fun _ => False) hq hrows
    (fun hmk h hh => .inl ⟨(hmaking hmk).1, (hmaking hmk).2 ▸ hh⟩) x hx
  exact hcases.resolve_left not_false

/-- A call that makes a directory. -/
theorem Home.make {p : Plan} {ownerId : Uuid} (h : Home s q) (hq : q n = some (op, seen))
    (hm : motion (op, e :: seen) = motion (op, seen)) (hp : planned op = some p)
    (howner : plannedOwner op (e :: seen) = some ownerId)
    (hname : nameOf s.world p.ownerType ownerId = some p.owner)
    (hnone : s.dirs.find p.owner p.name = none)
    (hstill : ∀ n x, motions q n = some x → x.old ≠ p.owner ∧ x.new ≠ p.owner)
    (hremoved : removed seen = none) :
    Home { s with dirs := s.dirs.createRepo p.owner p.name p.id }
      (Function.update q n (some (op, e :: seen))) := by
  refine h.keep hq hm rfl fun ahead hlinked hh => ?_
  have hmake := hh.make (x := ⟨p.ownerType, ownerId, p.name, p.id⟩) hname hnone
    (clear_of_still hlinked hstill)
  refine hmake.mono fun x hx => ?_
  refine held_of_update (fun h => h = ⟨p.ownerType, ownerId, p.name, p.id⟩) (s := s) hq
    (fun r hr _ => .inl ⟨hr, by simp [hremoved]⟩) (fun _ y hy => .inr ?_) x hx
  unfold holding at hy
  rw [hp, howner] at hy
  exact (Option.some.inj hy).symm

/-- A call that removes a directory. -/
theorem Home.unmake {owner repo : String} (h : Home s q) (hq : q n = some (op, seen))
    (hm : motion (op, e :: seen) = motion (op, seen)) (hmaking : making (e :: seen) = false)
    (hremoved : removed seen = none)
    (hnot : ∀ d, s.dirs.find owner repo = some d →
      ∀ x, Held s (Function.update q n (some (op, e :: seen))) x → x.id ≠ d.madeFor) :
    Home { s with dirs := s.dirs.deleteRepo owner repo }
      (Function.update q n (some (op, e :: seen))) := by
  refine h.keep hq hm rfl fun ahead _ hh => Housed.unmake (hh.mono fun x hx => ?_) hnot
  have hcases := held_of_update (fun _ => False) (s := s) hq
    (fun r hr _ => .inl ⟨hr, by simp [hremoved]⟩) (fun hmk => by simp [hmaking] at hmk) x hx
  exact hcases.resolve_left not_false

/-- Where a motion is, and whose. -/
theorem motion_eq {id : Uuid} {name : Option String} {old new : String} :
    moved seen = some (old, new) → motion (.updateCurrentUser id name, seen) = some ⟨id, old, new⟩ := by
  intro hmoved
  simp only [motion, hmoved, Option.map_some]

/-- A rename holds nothing of its own. -/
theorem held_of_rename {id : Uuid} {name : Option String}
    (hq : q n = some (.updateCurrentUser id name, seen))
    (hrows : s'.world.repositories = s.world.repositories) (hremoved : removed seen = none) {x : Holding}
    (hx : Held s' (Function.update q n (some (.updateCurrentUser id name, e :: seen))) x) :
    Held s q x := by
  have hcases := held_of_update (fun _ => False) (s := s) hq
    (fun r hr _ => .inl ⟨hrows ▸ hr, by simp [hremoved]⟩)
    (fun _ y hy => by simp [holding, planned] at hy) x hx
  exact hcases.resolve_left not_false

/-- A call that moves a directory ahead. -/
theorem Home.move {id : Uuid} {name : Option String} {old new : String} {dirs : Directories}
    (h : Home s q) (hw : OneOwner s.world) (hq : q n = some (.updateCurrentUser id name, seen))
    (hmoved : moved seen = none) (hmoved' : moved (e :: seen) = some (old, new))
    (hremoved : removed seen = none) (hne : old ≠ new)
    (hname : nameOf s.world .user id = some old)
    (hmove : s.dirs.renameOwner old new = some dirs)
    (hold : ∀ n x, motions q n = some x → x.old ≠ old ∧ x.new ≠ old)
    (hnew : ∀ n x, motions q n = some x → x.old ≠ new ∧ x.new ≠ new)
    (hfree : (s.dirs old).isSome ∨ s.world.isNameTaken new = false) :
    Home { s with dirs := dirs }
      (Function.update q n (some (.updateCurrentUser id name, e :: seen))) := by
  obtain ⟨ahead, hlinked, hh⟩ := h
  obtain ⟨u, hget, rfl⟩ := Option.map_eq_some_iff.mp hname
  obtain rfl : u.id = id := Table.key_of_get? hget
  have hu := Table.mem_rows_of_get? hget
  have hclear := clear_of_still hlinked hold
  have hahead : ahead u.id = none := by
    by_contra hsome
    exact hclear.notFrom u hu (Option.isSome_iff_ne_none.mpr hsome) rfl
  have hnobody : s.dirs u.name = none → ∀ t i, nameOf s.world t i ≠ some new := by
    intro hnone t i hti
    exact nameOf_ne_of_free (hfree.resolve_left (by simp [hnone])) hti
  refine ⟨Function.update ahead u.id (some new), ?_, ?_⟩
  · have hmotion : motion (.updateCurrentUser u.id name, e :: seen) = some ⟨u.id, u.name, new⟩ := by
      simp only [motion, hmoved', Option.map_some]
    rw [motions_update, hmotion]
    refine hlinked.set (x := ⟨u.id, u.name, new⟩) ?_ hahead hname
    rw [motions_of_eq hq]
    simp only [motion, hmoved, Option.map_none]
  · refine (hh.move hw hu hne hmove hahead hclear.notTo (clear_of_still hlinked hnew) hnobody).mono
      fun x hx => held_of_rename hq rfl hremoved hx

/-- A rename whose directory has moved is a motion of its user. -/
theorem Home.underway {id : Uuid} {name : Option String} {old new : String} (h : Home s q)
    (hq : q n = some (.updateCurrentUser id name, seen)) (hmoved : moved seen = some (old, new)) :
    ∃ ahead, Linked s.world (motions q) ahead ∧ Housed s ahead (Held s q) ∧
      motions q n = some ⟨id, old, new⟩ ∧ ahead id = some new := by
  obtain ⟨ahead, hlinked, hh⟩ := h
  have hn : motions q n = some ⟨id, old, new⟩ := (motions_of_eq hq).trans (motion_eq hmoved)
  exact ⟨ahead, hlinked, hh, hn, (hlinked.ahead_iff id new).mpr ⟨n, old, hn⟩⟩

/-- A call that lets the row follow. -/
theorem Home.commit {id : Uuid} {name : Option String} {old new : String}
    (h : Home s q) (hq : q n = some (.updateCurrentUser id name, seen))
    (hmoved : moved seen = some (old, new)) (hmoved' : moved (e :: seen) = none)
    (hremoved : removed seen = none) (hnamed : Named s.world w' id new)
    (horgs : w'.organizations = s.world.organizations)
    (hrows : w'.repositories = s.world.repositories) :
    Home { s with world := w' }
      (Function.update q n (some (.updateCurrentUser id name, e :: seen))) := by
  obtain ⟨ahead, hlinked, hh, hn, hahead⟩ := h.underway hq hmoved
  refine ⟨Function.update ahead id none, ?_, ?_⟩
  · have hmotion : motion (.updateCurrentUser id name, e :: seen) = none := by
      simp only [motion, hmoved', Option.map_none]
    rw [motions_update, hmotion]
    refine hlinked.clear hn fun i hi => (nameOf_named hnamed horgs).2 .user i ?_
    rintro ⟨-, heq⟩
    exact hi heq
  · exact (hh.commit hnamed horgs hahead).mono fun x hx => held_of_rename hq hrows hremoved hx

/-- A call that moves a directory back. -/
theorem Home.back {id : Uuid} {name : Option String} {old new : String} {dirs : Directories}
    (h : Home s q) (hw : OneOwner s.world) (hq : q n = some (.updateCurrentUser id name, seen))
    (hmoved : moved seen = some (old, new)) (hmoved' : moved (e :: seen) = none)
    (hremoved : removed seen = none) (hne : old ≠ new)
    (hmove : s.dirs.renameOwner new old = some dirs) :
    Home { s with dirs := dirs }
      (Function.update q n (some (.updateCurrentUser id name, e :: seen))) := by
  obtain ⟨ahead, hlinked, hh, hn, hahead⟩ := h.underway hq hmoved
  obtain ⟨u, hget, rfl⟩ := Option.map_eq_some_iff.mp (hlinked.behind n _ hn)
  obtain rfl : u.id = id := Table.key_of_get? hget
  refine ⟨Function.update ahead u.id none, ?_, ?_⟩
  · have hmotion : motion (.updateCurrentUser u.id name, e :: seen) = none := by
      simp only [motion, hmoved', Option.map_none]
    rw [motions_update, hmotion]
    exact hlinked.clear hn fun _ _ => rfl
  · exact (hh.back hw (Table.mem_rows_of_get? hget) hne hmove hahead).mono fun x hx =>
      held_of_rename hq rfl hremoved hx

/-- There is nothing in the way of a directory that moves back. -/
theorem Home.back_isSome {id : Uuid} {name : Option String} {old new : String}
    (h : Home s q) (hq : q n = some (.updateCurrentUser id name, seen))
    (hmoved : moved seen = some (old, new)) : (s.dirs.renameOwner new old).isSome := by
  obtain ⟨ahead, hlinked, hh, hn, hahead⟩ := h.underway hq hmoved
  obtain ⟨u, hget, rfl⟩ := Option.map_eq_some_iff.mp (hlinked.behind n _ hn)
  obtain rfl : u.id = id := Table.key_of_get? hget
  exact Directories.renameOwner_isSome
    (hh.vacated u (Table.mem_rows_of_get? hget) (by simp [hahead]))

end Requests

/-! ### Ids -/

/-- Requests make repositories of different ids; a repository of such an id has
the row that its request has inserted, and has none once it was removed. -/
structure Ids (s : Storage) (q : Requests) (known : Uuid → Prop) : Prop where
  distinct : ∀ n m x y p p', q n = some x → q m = some y → planned x.1 = some p →
    planned y.1 = some p' → p.id = p'.id → n = m
  inserted : ∀ n x p, q n = some x → planned x.1 = some p → known p.id → x.2.any isInserted = true
  gone : ∀ n x p, q n = some x → planned x.1 = some p → x.2.any isDeletion = true →
    ∀ r ∈ s.world.repositories.rows, r.id ≠ p.id
  rows : ∀ r ∈ s.world.repositories.rows, known r.id
  found : ∀ n x r, q n = some x → found x.2 = some r → known r.id

section Ids

variable {q : Requests} {n : ℕ} {op : SiteOp} {seen : List SiteEvent} {e : SiteEvent}
  {s s' : Storage} {known : Uuid → Prop}

/-- A repository that is being made has no row and has had none. -/
theorem Ids.not_known (h : Ids s q known) {x : SiteOp × List SiteEvent} {p : Plan}
    (hn : q n = some x) (hp : planned x.1 = some p) (hmaking : making x.2 = true) : ¬ known p.id := by
  intro hknown
  have hnone : x.2.any isInsertion = false := by
    unfold making at hmaking
    simp only [Bool.and_eq_true, Bool.not_eq_true'] at hmaking
    exact hmaking.2
  obtain ⟨e, he, hinserted⟩ := List.any_eq_true.mp (h.inserted n x p hn hp hknown)
  have hinsertion : isInsertion e = true := by
    unfold isInserted at hinserted
    split at hinserted
    · rfl
    · cases hinserted
  exact absurd (List.any_eq_true.mpr ⟨e, he, hinsertion⟩) (by simp [hnone])

/-- A request that arrives draws an id of its own. -/
theorem Ids.start (h : Ids s q known) (hfresh : ∀ p, planned op = some p → ¬ known p.id ∧
      ∀ m x p', q m = some x → planned x.1 = some p' → p'.id ≠ p.id) :
    Ids s (Function.update q n (some (op, []))) known := by
  refine ⟨fun m m' x y p p' hm hm' hp hp' hid => ?_, fun m x p hm hp hknown => ?_,
    fun m x p hm hp hdel => ?_, h.rows, fun m x r hm hr => ?_⟩
  · rcases update_cases hm with ⟨rfl, rfl⟩ | ⟨-, hold⟩ <;> rcases update_cases hm' with ⟨rfl, rfl⟩ | ⟨-, hold'⟩
    · rfl
    · exact absurd hid.symm ((hfresh p hp).2 m' y p' hold' hp')
    · exact absurd hid ((hfresh p' hp').2 m x p hold hp)
    · exact h.distinct m m' x y p p' hold hold' hp hp' hid
  · rcases update_cases hm with ⟨rfl, rfl⟩ | ⟨-, hold⟩
    · exact absurd hknown (hfresh p hp).1
    · exact h.inserted m x p hold hp hknown
  · rcases update_cases hm with ⟨rfl, rfl⟩ | ⟨-, hold⟩
    · cases hdel
    · exact h.gone m x p hold hp hdel
  · rcases update_cases hm with ⟨rfl, rfl⟩ | ⟨-, hold⟩
    · cases hr
    · exact h.found m x r hold hr

/-- A call. The row it inserts is the one its request is to make. -/
theorem Ids.step (h : Ids s q known) (hq : q n = some (op, seen))
    (hrows : ∀ r ∈ s'.world.repositories.rows, r ∈ s.world.repositories.rows ∨
      (isInserted e = true ∧ isDeletion e = false ∧ seen.any isDeletion = false ∧
        ∃ p, planned op = some p ∧ r.id = p.id))
    (hdel : isDeletion e = true → ∀ p, planned op = some p →
      ∀ r ∈ s'.world.repositories.rows, r.id ≠ p.id)
    (hfound : ∀ r, Site.found (e :: seen) = some r →
      r ∈ s.world.repositories.rows ∨ Site.found seen = some r) :
    Ids s' (Function.update q n (some (op, e :: seen)))
      fun id => (∃ r ∈ s'.world.repositories.rows, r.id = id) ∨ known id := by
  -- a new row is nobody else's
  have hother : ∀ {m : ℕ} {x : SiteOp × List SiteEvent} {p : Plan}, m ≠ n → q m = some x →
      planned x.1 = some p → ∀ r ∈ s'.world.repositories.rows, r.id = p.id →
        r ∈ s.world.repositories.rows := by
    intro m x p hne hm hp r hr hid
    rcases hrows r hr with hr | ⟨-, -, -, p', hp', hid'⟩
    · exact hr
    · exact absurd (h.distinct m n x (op, seen) p p' hm hq hp hp' (hid.symm.trans hid')) hne
  refine ⟨fun m m' x y p p' hm hm' hp hp' hid => ?_, fun m x p hm hp hknown => ?_,
    fun m x p hm hp hgone r hr hid => ?_, fun r hr => .inl ⟨r, hr, rfl⟩, fun m x r hm hr => .inr ?_⟩
  · rcases update_cases hm with ⟨rfl, rfl⟩ | ⟨-, hold⟩ <;> rcases update_cases hm' with ⟨rfl, rfl⟩ | ⟨-, hold'⟩
    · rfl
    · exact h.distinct m m' _ y p p' hq hold' hp hp' hid
    · exact h.distinct m m' x _ p p' hold hq hp hp' hid
    · exact h.distinct m m' x y p p' hold hold' hp hp' hid
  · rcases update_cases hm with ⟨rfl, rfl⟩ | ⟨hne, hold⟩
    · change (isInserted e || seen.any isInserted) = true
      rcases hknown with ⟨r, hr, hid⟩ | hknown
      · rcases hrows r hr with hr | ⟨hins, -⟩
        · rw [h.inserted m _ p hq hp (hid ▸ h.rows r hr), Bool.or_true]
        · rw [hins, Bool.true_or]
      · rw [h.inserted m _ p hq hp hknown, Bool.or_true]
    · refine h.inserted m x p hold hp ?_
      rcases hknown with ⟨r, hr, hid⟩ | hknown
      · exact hid ▸ h.rows r (hother hne hold hp r hr hid)
      · exact hknown
  · rcases update_cases hm with ⟨rfl, rfl⟩ | ⟨hne, hold⟩
    · rcases Bool.or_eq_true_iff.mp hgone with hnow | hbefore
      · exact hdel hnow p hp r hr hid
      · rcases hrows r hr with hr | ⟨-, -, hnone, -⟩
        · exact h.gone m _ p hq hp hbefore r hr hid
        · rw [hnone] at hbefore
          cases hbefore
    · exact h.gone m x p hold hp hgone r (hother hne hold hp r hr hid) hid
  · rcases update_cases hm with ⟨rfl, rfl⟩ | ⟨-, hold⟩
    · rcases hfound r hr with hr | hr
      · exact h.rows r hr
      · exact h.found m _ r hq hr
    · exact h.found m x r hold hr

end Ids

/-! ### Calls that change neither rows nor directories -/

/-- Neither the rows nor the directories change. -/
def SiteCall.quiet : SiteCall → Bool
  | .isNameTaken _ | .getUserById _ | .updateUser _ none | .getOrganization _ | .getUser _
  | .verifyAuthorizedForRepositoryCreation _ | .repoExists .. | .emptyHooks .. | .installHook ..
  | .createInitialCommit .. | .verifyAuthorizedForRepository _ | .getRepository .. => true
  | _ => false

section Quiet

variable {s : Storage} {c : SiteCall} {op : SiteOp} {seen : List SiteEvent}
  {r : Except AppError (SiteResp c)}

theorem inDirectory_snd {owner repo : String} : (s.inDirectory owner repo).2 = s := by
  unfold Storage.inDirectory
  split_ifs <;> rfl

theorem exec_quiet (h : c.quiet = true) : (siteExec c s).2 = s := by
  cases c with
  | updateUser id name =>
    cases name with
    | none =>
      simp only [siteExec, Storage.updateUser]
      split <;> rfl
    | some new => cases h
  | emptyHooks owner repo => exact inDirectory_snd
  | installHook owner repo hook => exact inDirectory_snd
  | createInitialCommit owner repo userId =>
    simp only [siteExec]
    split
    · rfl
    · exact inDirectory_snd
  | _ => first | rfl | cases h

theorem moved_quiet (h : c.quiet = true) : moved (⟨c, r⟩ :: seen) = moved seen := by
  cases c with
  | updateUser id name =>
    cases name with
    | none => rfl
    | some new => cases h
  | _ => first | rfl | cases h

theorem making_quiet (h : c.quiet = true) (hm : making (⟨c, r⟩ :: seen) = true) :
    making seen = true := by
  cases c with
  | updateUser id name => exact hm
  | emptyHooks owner repo =>
    cases r with
    | ok a => exact hm
    | error e => simp [making, isHookFailure] at hm
  | installHook owner repo hook =>
    cases r with
    | ok a => exact hm
    | error e => simp [making, isHookFailure] at hm
  | _ => first | exact hm | cases h

theorem foundOrganization_of_ne (h : ∀ name, c ≠ .getOrganization name) :
    foundOrganization (⟨c, r⟩ :: seen) = foundOrganization seen := by
  cases c with
  | getOrganization name => exact absurd rfl (h name)
  | _ => rfl

theorem holding_congr {e : SiteEvent} (h : plannedOwner op (e :: seen) = plannedOwner op seen) :
    holding op (e :: seen) = holding op seen := by
  unfold holding
  rw [h]

theorem motion_congr {e : SiteEvent} (h : moved (e :: seen) = moved seen) :
    motion (op, e :: seen) = motion (op, seen) := by
  cases op with
  | updateCurrentUser id name => exact congrArg (Option.map _) h
  | _ => rfl

/-- A call that has had no effect. -/
theorem Home.idle {q : Requests} {n : ℕ} {e : SiteEvent} (h : Home s q) (hq : q n = some (op, seen))
    (hremoved : removed seen = none) (hm : moved (e :: seen) = moved seen)
    (hmaking : making (e :: seen) = true → making seen = true ∧
      holding op (e :: seen) = holding op seen) :
    Home s (Function.update q n (some (op, e :: seen))) :=
  h.rows hq (motion_congr hm) rfl rfl rfl (fun r hr _ => .inl ⟨hr, by simp [hremoved]⟩) hmaking

theorem Home.quiet {q : Requests} {n : ℕ} (h : Home s q) (hq : q n = some (op, seen))
    (hc : c.quiet = true) (hremoved : removed seen = none) (hbefore : Before op seen c) :
    Home s (Function.update q n (some (op, ⟨c, r⟩ :: seen))) := by
  refine h.idle hq hremoved (moved_quiet hc) fun hmk => ?_
  have hmaking := making_quiet hc hmk
  refine ⟨hmaking, holding_congr (plannedOwner_cons (foundOrganization_of_ne ?_))⟩
  rintro name rfl
  have hnone : seen.any isMaking = false := hbefore.2
  unfold making at hmaking
  rw [hnone] at hmaking
  cases hmaking

end Quiet

/-! ### Calls that change them -/

section Performed

variable {S : Sys SiteOp SiteCall SiteResp AppError Storage} {caller : Caller SiteOp} {fate : Fate}
  {q : Requests} {n : ℕ} {op : SiteOp} {seen : List SiteEvent}

/-- What the call has seen after it, and its request with the others. -/
abbrev answered (S : Sys SiteOp SiteCall SiteResp AppError Storage) (caller : Caller SiteOp)
    (c : SiteCall) (fate : Fate) (q : Requests) (n : ℕ) (op : SiteOp) (seen : List SiteEvent) :
    Requests :=
  Function.update q n (some (op, ⟨c, (S.perform siteHandler caller c fate).1⟩ :: seen))

/-- A call, by what becomes of it. -/
theorem home_of_exec {c : SiteCall} {r : Except AppError (SiteResp c)} {s : Storage}
    (hexec : siteExec c S.store = (r, s))
    (hrefused : fate = .refused → ∀ e,
      Home S.store (Function.update q n (some (op, ⟨c, .error e⟩ :: seen))))
    (hanswered : fate = .answered → Home s (Function.update q n (some (op, ⟨c, r⟩ :: seen))))
    (hlost : fate = .lost → ∀ e, Home s (Function.update q n (some (op, ⟨c, .error e⟩ :: seen)))) :
    Home (S.perform siteHandler caller c fate).2.store
      (answered S caller c fate q n op seen) :=
  perform_of_exec (Q := fun a s => Home s (Function.update q n (some (op, ⟨c, a⟩ :: seen)))) hexec
    (fun h => hrefused h _) hanswered fun h => hlost h _

theorem home_updateUser {id : Uuid} {name : Option String} {old new : String} (h : Home S.store q)
    (hq : q n = some (.updateCurrentUser id name, seen)) (hmoved : moved seen = some (old, new))
    (hremoved : removed seen = none) (hfate : fate ≠ .lost) :
    Home (S.perform siteHandler caller (.updateUser id (some new)) fate).2.store
      (answered S caller (.updateUser id (some new)) fate q n (.updateCurrentUser id name) seen) := by
  have hkeep : ∀ e, Home S.store (Function.update q n
      (some (.updateCurrentUser id name, ⟨.updateUser id (some new), .error e⟩ :: seen))) := fun e =>
    h.idle hq hremoved rfl fun hmk => ⟨hmk, rfl⟩
  rcases updateUser_cases S.store id new with ⟨e, hexec⟩ | ⟨users, hexec, hnamed⟩
  · exact home_of_exec hexec (fun _ => hkeep) (fun _ => hkeep e) fun hlost => absurd hlost hfate
  · exact home_of_exec hexec (fun _ => hkeep)
      (fun _ => h.commit hq hmoved rfl hremoved hnamed rfl rfl) fun hlost => absurd hlost hfate

theorem home_renameOwner {id : Uuid} {name : Option String} {old new : String} (h : Home S.store q)
    (hw : OneOwner S.store.world) (hq : q n = some (.updateCurrentUser id name, seen))
    (hmoved : moved seen = none) (hremoved : removed seen = none) (hne : old ≠ new)
    (horderly : fate = .refused ∨ S.store.dirs.renameOwner old new = none ∨
      fate = .answered ∧ nameOf S.store.world .user id = some old ∧
        (∀ n x, motions q n = some x → x.old ≠ old ∧ x.new ≠ old) ∧
        (∀ n x, motions q n = some x → x.old ≠ new ∧ x.new ≠ new) ∧
        ((S.store.dirs old).isSome ∨ S.store.world.isNameTaken new = false)) :
    Home (S.perform siteHandler caller (.renameOwner old new) fate).2.store
      (answered S caller (.renameOwner old new) fate q n (.updateCurrentUser id name) seen) := by
  have hkeep : ∀ e, Home S.store (Function.update q n
      (some (.updateCurrentUser id name, ⟨.renameOwner old new, .error e⟩ :: seen))) := fun e =>
    h.idle hq hremoved (by simp only [moved, hmoved]) fun hmk => ⟨hmk, rfl⟩
  cases hmove : S.store.dirs.renameOwner old new with
  | none =>
    have hexec : siteExec (.renameOwner old new) S.store =
        (.error (.git (.git2Error "Directory not empty")), S.store) := by
      simp only [siteExec, hmove]
    exact home_of_exec hexec (fun _ => hkeep) (fun _ => hkeep _) fun _ => hkeep
  | some dirs =>
    have hexec : siteExec (.renameOwner old new) S.store = (.ok (), { S.store with dirs := dirs }) := by
      simp only [siteExec, hmove]
    rcases horderly with rfl | hnone | ⟨rfl, hname, hold, hnew, hfree⟩
    · exact home_of_exec hexec (fun _ => hkeep) (fun h => by cases h) (fun h => by cases h)
    · rw [hmove] at hnone
      cases hnone
    · refine home_of_exec hexec (fun _ => hkeep) (fun _ => ?_) (fun h => by cases h)
      exact h.move hw hq hmoved (by simp only [moved, hmoved]) hremoved hne hname hmove hold hnew hfree

theorem home_renameBack {id : Uuid} {name : Option String} {old new : String} (h : Home S.store q)
    (hw : OneOwner S.store.world) (hq : q n = some (.updateCurrentUser id name, seen))
    (hmoved : moved seen = some (old, new)) (hremoved : removed seen = none) (hne : old ≠ new)
    (hfate : fate ≠ .refused) :
    Home (S.perform siteHandler caller (.renameOwner new old) fate).2.store
      (answered S caller (.renameOwner new old) fate q n (.updateCurrentUser id name) seen) := by
  obtain ⟨dirs, hmove⟩ := Option.isSome_iff_exists.mp (h.back_isSome hq hmoved)
  have hexec : siteExec (.renameOwner new old) S.store = (.ok (), { S.store with dirs := dirs }) := by
    simp only [siteExec, hmove]
  have hback : ∀ r, Home { S.store with dirs := dirs } (Function.update q n
      (some (.updateCurrentUser id name, ⟨.renameOwner new old, r⟩ :: seen))) := fun r =>
    h.back hw hq hmoved (by simp only [moved, hmoved]) hremoved hne hmove
  exact home_of_exec hexec (fun hrefused => absurd hrefused hfate) (fun _ => hback _)
    fun _ e => hback _

theorem home_createRepo {p : Plan} {ownerId : Uuid} (h : Home S.store q)
    (hq : q n = some (op, seen)) (hp : planned op = some p)
    (howner : plannedOwner op seen = some ownerId) (hremoved : removed seen = none)
    (horderly : fate = .refused ∨ S.store.dirs.find p.owner p.name = none ∧
      nameOf S.store.world p.ownerType ownerId = some p.owner ∧
      ∀ n x, motions q n = some x → x.old ≠ p.owner ∧ x.new ≠ p.owner) :
    Home (S.perform siteHandler caller (.createRepo p.owner p.name p.id) fate).2.store
      (answered S caller (.createRepo p.owner p.name p.id) fate q n op seen) := by
  have hkeep : ∀ e, Home S.store (Function.update q n
      (some (op, ⟨.createRepo p.owner p.name p.id, .error e⟩ :: seen))) := fun e =>
    h.idle hq hremoved rfl fun hmk => ⟨hmk, holding_congr (plannedOwner_cons rfl)⟩
  have hexec : siteExec (.createRepo p.owner p.name p.id) S.store =
      (.ok (), { S.store with dirs := S.store.dirs.createRepo p.owner p.name p.id }) := rfl
  rcases horderly with rfl | ⟨hnone, hname, hstill⟩
  · exact home_of_exec hexec (fun _ => hkeep) nofun nofun
  have hmake : ∀ r, Home { S.store with dirs := S.store.dirs.createRepo p.owner p.name p.id }
      (Function.update q n (some (op, ⟨.createRepo p.owner p.name p.id, r⟩ :: seen))) := fun r =>
    h.make hq (motion_congr rfl) hp ((plannedOwner_cons rfl).trans howner) hname hnone hstill hremoved
  exact home_of_exec hexec (fun _ => hkeep) (fun _ => hmake _) fun _ e => hmake _

theorem home_mirrorRepo {p : Plan} {ownerId : Uuid} (h : Home S.store q)
    (hq : q n = some (op, seen)) (hp : planned op = some p)
    (howner : plannedOwner op seen = some ownerId) (hremoved : removed seen = none)
    (horderly : fate = .refused ∨ (S.store.dirs.find p.owner p.name).isSome ∨
      nameOf S.store.world p.ownerType ownerId = some p.owner ∧
      ∀ n x, motions q n = some x → x.old ≠ p.owner ∧ x.new ≠ p.owner) :
    Home (S.perform siteHandler caller (.mirrorRepo p.owner p.name p.id) fate).2.store
      (answered S caller (.mirrorRepo p.owner p.name p.id) fate q n op seen) := by
  have hkeep : ∀ e, Home S.store (Function.update q n
      (some (op, ⟨.mirrorRepo p.owner p.name p.id, .error e⟩ :: seen))) := fun e =>
    h.idle hq hremoved rfl fun hmk => ⟨hmk, holding_congr (plannedOwner_cons rfl)⟩
  by_cases hthere : (S.store.dirs.find p.owner p.name).isSome
  · have hexec : siteExec (.mirrorRepo p.owner p.name p.id) S.store =
        (.error (.git (.git2Error "git clone failed: ")), S.store) := if_pos hthere
    exact home_of_exec hexec (fun _ => hkeep) (fun _ => hkeep _) fun _ => hkeep
  · have hexec : siteExec (.mirrorRepo p.owner p.name p.id) S.store =
        (.ok (), { S.store with dirs := S.store.dirs.createRepo p.owner p.name p.id }) := if_neg hthere
    rcases horderly with rfl | hsome | ⟨hname, hstill⟩
    · exact home_of_exec hexec (fun _ => hkeep) nofun nofun
    · exact absurd hsome hthere
    have hmake : ∀ r, Home { S.store with dirs := S.store.dirs.createRepo p.owner p.name p.id }
        (Function.update q n (some (op, ⟨.mirrorRepo p.owner p.name p.id, r⟩ :: seen))) := fun r =>
      h.make hq (motion_congr rfl) hp ((plannedOwner_cons rfl).trans howner) hname (by simpa using hthere)
        hstill hremoved
    exact home_of_exec hexec (fun _ => hkeep) (fun _ => hmake _) fun _ e => hmake _

theorem home_insertRepository {id ownerId : Uuid} {name : String} {ownerType : RepositoryOwnerType}
    {visibility : RepositoryVisibility} {readonly : Bool} (h : Home S.store q)
    (hq : q n = some (op, seen)) (hmaking : making seen = true)
    (hholding : holding op seen = some ⟨ownerType, ownerId, name, id⟩) (hremoved : removed seen = none)
    (hfate : fate ≠ .lost) :
    Home (S.perform siteHandler caller
        (.insertRepository id name ownerId ownerType visibility readonly) fate).2.store
      (answered S caller (.insertRepository id name ownerId ownerType visibility readonly) fate q n op
        seen) := by
  have hnot : ∀ r, making (⟨.insertRepository id name ownerId ownerType visibility readonly, r⟩ ::
      seen) = false := fun r => by simp [making, isInsertion]
  have hkeep : ∀ e, Home S.store (Function.update q n (some (op,
      ⟨.insertRepository id name ownerId ownerType visibility readonly, .error e⟩ :: seen))) := fun e =>
    h.idle hq hremoved rfl fun hmk => by simp [hnot] at hmk
  rcases insertRepository_cases S.store id name ownerId ownerType visibility readonly with
    ⟨e, hexec⟩ | ⟨repositories, hexec, -, hinsert⟩
  · exact home_of_exec hexec (fun _ => hkeep) (fun _ => hkeep e) fun hlost => absurd hlost hfate
  · refine home_of_exec hexec (fun _ => hkeep) (fun _ => ?_) fun hlost => absurd hlost hfate
    refine h.rows hq (motion_congr rfl) rfl rfl rfl (fun r hr _ => ?_) fun hmk => by simp [hnot] at hmk
    rcases (Table.mem_insert? hinsert).mp hr with rfl | hr
    · exact .inr ⟨hmaking, hholding⟩
    · exact .inl ⟨hr, by simp [hremoved]⟩

theorem home_deleteRow {id : Uuid} (h : Home S.store q) (hq : q n = some (op, seen))
    (hmaking : making seen = false) (hremoved : removed seen = none ∨ removed seen = some id)
    (hfate : fate ≠ .refused) :
    Home (S.perform siteHandler caller (.deleteRow id) fate).2.store
      (answered S caller (.deleteRow id) fate q n op seen) := by
  have herase : ∀ r, Home { S.store with world := { S.store.world with
      repositories := S.store.world.repositories.erase id } }
      (Function.update q n (some (op, ⟨.deleteRow id, r⟩ :: seen))) := by
    intro r
    refine h.rows hq (motion_congr rfl) rfl rfl rfl (fun row hrow _ => .inl ?_) fun hmk => ?_
    · obtain ⟨hrow, hid⟩ := Table.mem_erase.mp hrow
      refine ⟨hrow, ?_⟩
      rcases hremoved with hnone | hsome
      · simp [hnone]
      · rw [hsome]
        exact fun heq => hid (Option.some.inj heq).symm
    · have hmk : making seen = true := hmk
      rw [hmaking] at hmk
      cases hmk
  exact home_of_exec rfl (fun hrefused => absurd hrefused hfate) (fun _ => herase _) fun _ e => herase _

theorem home_deleteRepo {owner repo : String} (h : Home S.store q) (hq : q n = some (op, seen))
    (hmaking : making seen = false) (hremoved : removed seen = none)
    (horderly : fate = .refused ∨ (planned op = none → fate = .answered) ∧
      ∀ d, S.store.dirs.find owner repo = some d → ∀ r, (planned op = none → ∃ a, r = .ok a) →
        ∀ x, Held S.store (Function.update q n (some (op, ⟨.deleteRepo owner repo, r⟩ :: seen))) x →
          x.id ≠ d.madeFor) :
    Home (S.perform siteHandler caller (.deleteRepo owner repo) fate).2.store
      (answered S caller (.deleteRepo owner repo) fate q n op seen) := by
  have hnot : ∀ r, making (⟨.deleteRepo owner repo, r⟩ :: seen) = false := fun r => hmaking
  have hkeep : ∀ e, Home S.store (Function.update q n
      (some (op, ⟨.deleteRepo owner repo, .error e⟩ :: seen))) := fun e =>
    h.idle hq hremoved rfl fun hmk => by simp [hnot] at hmk
  by_cases hthere : (S.store.dirs.find owner repo).isSome
  · have hexec : siteExec (.deleteRepo owner repo) S.store =
        (.ok (), { S.store with dirs := S.store.dirs.deleteRepo owner repo }) := if_pos hthere
    rcases horderly with rfl | ⟨hlost, hmine⟩
    · exact home_of_exec hexec (fun _ => hkeep) nofun nofun
    have hunmake : ∀ r, (planned op = none → ∃ a, r = .ok a) →
        Home { S.store with dirs := S.store.dirs.deleteRepo owner repo }
          (Function.update q n (some (op, ⟨.deleteRepo owner repo, r⟩ :: seen))) := fun r hr =>
      h.unmake hq (motion_congr rfl) (hnot r) hremoved fun d hd => hmine d hd r hr
    refine home_of_exec hexec (fun _ => hkeep) (fun _ => hunmake _ fun _ => ⟨(), rfl⟩)
      fun hfate e => hunmake _ fun hp => ?_
    rw [hlost hp] at hfate
    cases hfate
  · have hexec : siteExec (.deleteRepo owner repo) S.store = (.error noSuchDirectory, S.store) :=
      if_neg hthere
    exact home_of_exec hexec (fun _ => hkeep) (fun _ => hkeep _) fun _ => hkeep

end Performed

end Site
end Gitdot
