/-
# Stars

`star` inserts a row of `core.stars` unless the user has starred the
repository already, and adds one to the repository's `stars` if it did;
`unstar` deletes the row and takes one off if there was one. Both are one
transaction of two statements, and the counter is a copy of the number of rows.

Between its two statements a transaction has its counter off by one, in its own
view alone (`Accounted`). The row is then locked: an `unstar` that waits for the
repository's row still has the star it deleted among the committed ones, so the
counter it takes one off is not zero and `GREATEST` never clamps
(`one_le_stars`).

Key definitions: `star`, `unstar`, `starEngine`, `Accounted`.
Key theorems: `starRules`, `stars_counted`.
-/
import Gitdot.Lib.Tally
import Gitdot.Lib.Transaction
import Gitdot.Server.World
import Mathlib.Data.Prod.Lex

namespace Gitdot
namespace Stars

open Lib Lib.Tally Lib.Transaction Keyed

/-- A row of `core.stars`. -/
structure RepositoryStar where
  userId : Uuid
  repositoryId : Uuid
  deriving DecidableEq

/-- `UNIQUE(user_id, repository_id)`. -/
def starKey (userId repositoryId : Uuid) : Uuid ×ₗ Uuid := toLex (userId, repositoryId)

instance : Keyed RepositoryStar (Uuid ×ₗ Uuid) := ⟨fun a => starKey a.userId a.repositoryId⟩

/-- The counter of a row of `core.repositories`. -/
structure StarCount where
  id : Uuid
  stars : ℤ
  deriving DecidableEq

instance : Keyed StarCount Uuid := ⟨StarCount.id⟩

/-- `core.stars`, and the counters of `core.repositories`. -/
abbrev StarStore := Ledger RepositoryStar StarCount

/-- The statements of the two transactions. -/
inductive StarCall where
  | insertStar (userId repositoryId : Uuid)
  | addStar (id : Uuid)
  | deleteStar (userId repositoryId : Uuid)
  | subtractStar (id : Uuid)

/-- What a statement returns: `RETURNING` or the rows affected. -/
def StarResp : StarCall → Type
  | .insertStar _ _ => Option RepositoryStar
  | .addStar _ => Unit
  | .deleteStar _ _ => ℕ
  | .subtractStar _ => Unit

abbrev StarWrite := Entry RepositoryStar StarCount (Uuid ×ₗ Uuid)

abbrev StarPlace := Place (Uuid ×ₗ Uuid) Uuid

/-- `UPDATE core.repositories SET stars = ... WHERE id = $1`. -/
def setStars (id : Uuid) (f : ℤ → ℤ) (s : StarStore) : Except DatabaseError Unit × Option StarWrite :=
  match s.counters.get? id with
  | some c => (.ok (), some (.count { c with stars := f c.stars }))
  | none => (.ok (), none)

/-- A statement. The insert refers to a repository, and does nothing on
conflict. -/
def execStar : (c : StarCall) → StarStore → Except DatabaseError (StarResp c) × Option StarWrite
  | .insertStar userId repositoryId, s =>
    match s.counters.get? repositoryId, s.rows.get? (starKey userId repositoryId) with
    | none, _ => (.error .foreignKeyViolation, none)
    | some _, some _ => (.ok (none : Option RepositoryStar), none)
    | some _, none =>
      let a : RepositoryStar := ⟨userId, repositoryId⟩
      (.ok (some a : Option RepositoryStar), some (.change (.put a)))
  | .addStar id, s => setStars id (· + 1) s
  | .deleteStar userId repositoryId, s =>
    match s.rows.get? (starKey userId repositoryId) with
    | some _ => (.ok (1 : ℕ), some (.change (.drop (starKey userId repositoryId))))
    | none => (.ok (0 : ℕ), none)
  | .subtractStar id, s => setStars id (fun stars => max (stars - 1) 0) s

/-- The row a statement waits for. A delete or an update waits for the row it
finds, the insert for any row of its unique key. -/
def waitsStar : StarCall → StarStore → Option StarPlace
  | .insertStar userId repositoryId, _ => some (.row (starKey userId repositoryId))
  | .addStar id, s => (s.counters.get? id).map fun c => .counter (key c)
  | .deleteStar userId repositoryId, s =>
    (s.rows.get? (starKey userId repositoryId)).map fun _ => .row (starKey userId repositoryId)
  | .subtractStar id, s => (s.counters.get? id).map fun c => .counter (key c)

theorem waits_setStars {id : Uuid} {f : ℤ → ℤ} {s : StarStore} {w : StarWrite}
    (h : (setStars id f s).2 = some w) :
    ((s.counters.get? id).map fun c => (.counter (key c) : StarPlace)) = some w.place := by
  unfold setStars at h
  split at h
  · next c hc =>
    rw [hc, ← Option.some.inj h]
    rfl
  · cases h

theorem waits_execStar (c : StarCall) (s : StarStore) (w : StarWrite)
    (h : (execStar c s).2 = some w) : waitsStar c s = some w.place := by
  cases c with
  | insertStar userId repositoryId =>
    simp only [execStar] at h
    split at h
    · cases h
    · cases h
    · rw [← Option.some.inj h]
      rfl
  | addStar id => exact waits_setStars h
  | deleteStar userId repositoryId =>
    simp only [execStar] at h
    simp only [waitsStar]
    split at h
    · next a ha =>
      rw [ha, ← Option.some.inj h]
      rfl
    · cases h
  | subtractStar id => exact waits_setStars h

/-- The two tables as a database. -/
def starEngine : Engine StarStore StarWrite StarPlace (Cell RepositoryStar StarCount) StarCall StarResp
    DatabaseError where
  apply := Entry.apply
  key := Entry.place
  row := Ledger.cell
  waits := waitsStar
  exec := execStar
  row_apply := cell_apply
  waits_exec := waits_execStar

/-! ### The transactions -/

/-- What `star` and `unstar` return. -/
inductive StarResult where
  | star (a : Option RepositoryStar)
  | unstar (removed : Bool)
  deriving DecidableEq

abbrev StarProg := Prog StarCall StarResp DatabaseError DatabaseError

/-- One statement; its failure is returned. -/
def statement (c : StarCall) : StarProg (StarResp c) := Prog.perform (fun e => e) c

/-- `star`, from the answer of its insert on. -/
def starInserted (id : Uuid) (a : Option RepositoryStar) : StarProg StarResult :=
  match a with
  | some a => do
    let _ ← statement (.addStar id)
    return .star (some a)
  | none => return .star none

/-- `star`. -/
def star (id userId : Uuid) : StarProg StarResult := do
  let a ← statement (.insertStar userId id)
  starInserted id a

/-- `unstar`, from the rows its delete affected on. -/
def unstarDeleted (id : Uuid) (deleted : ℕ) : StarProg StarResult :=
  if deleted > 0 then do
    let _ ← statement (.subtractStar id)
    return .unstar (decide (deleted > 0))
  else return .unstar (decide (deleted > 0))

/-- `unstar`. -/
def unstar (id userId : Uuid) : StarProg StarResult := do
  let deleted ← statement (.deleteStar userId id)
  unstarDeleted id deleted

/-- A transaction that a call of the service makes. -/
inductive StarOp where
  | star (id userId : Uuid)
  | unstar (id userId : Uuid)

def StarOp.program : StarOp → StarProg StarResult
  | .star id userId => Stars.star id userId
  | .unstar id userId => Stars.unstar id userId

abbrev StarDb := Db StarOp StarCall StarResp DatabaseError DatabaseError StarResult StarStore StarWrite

/-! ### Rows and counters -/

/-- A star counts for one. -/
def starScale : Scale RepositoryStar StarCount Uuid :=
  ⟨RepositoryStar.repositoryId, fun _ => 1, StarCount.stars⟩

/-- The rows of `core.stars` of a repository. -/
def starsOf (s : StarStore) (id : Uuid) : List RepositoryStar :=
  s.rows.rows.filter fun a => decide (a.repositoryId = id)

theorem total_eq_length (s : StarStore) (id : Uuid) :
    starScale.total s.rows id = (starsOf s id).length := by
  have hsum : ∀ rows : List RepositoryStar, (rows.map starScale.weight).sum = rows.length := by
    simp [starScale]
  rw [Scale.total_eq_sum, hsum]
  rfl

section Accounted

variable {s s' : StarStore} {writes : List StarWrite} {p : StarProg StarResult}

/-- The counter of a repository that has a star is not zero. -/
theorem one_le_stars {a : RepositoryStar} {c : StarCount} (hs : Balanced starScale s)
    (ha : s.rows.get? (key a) = some a) (hc : s.counters.get? a.repositoryId = some c) :
    1 ≤ c.stars := by
  have hmem : a ∈ starsOf s a.repositoryId :=
    List.mem_filter.mpr ⟨Table.mem_rows_of_get? ha, by simp⟩
  have hpos : 0 < (starsOf s a.repositoryId).length := List.length_pos_of_mem hmem
  have hcount : c.stars = starScale.total s.rows (key c) := hs c (Table.mem_rows_of_get? hc)
  rw [Table.key_of_get? hc, total_eq_length] at hcount
  omega

theorem shifts_put {a : RepositoryStar} (h : s.rows.get? (key a) = none) :
    Shifts starScale s.rows (.put a) a.repositoryId 1 := by
  have hshift := shifts_of (f := starScale) (t := s.rows) (x := a.repositoryId) (w := .put a)
    (by simp [Change.new, starScale]) (by simp [Change.key, h])
  simpa [Change.new, Change.key, h, Scale.weightOf, starScale] using hshift

theorem shifts_drop {a : RepositoryStar} (h : s.rows.get? (key a) = some a) :
    Shifts starScale s.rows (.drop (key a)) a.repositoryId (-1) := by
  have hshift := shifts_of (f := starScale) (t := s.rows) (x := a.repositoryId) (w := .drop (key a))
    (by simp [Change.new]) (by simp [Change.key, h, starScale])
  simpa [Change.new, Change.key, h, Scale.weightOf, starScale] using hshift

/-- What a transaction has written and has left to do: a star inserted or
deleted and the counter to go, or nothing to go. -/
inductive Accounted (s : StarStore) : StarProg StarResult → List StarWrite → Prop where
  | star {id userId} : Accounted s (star id userId) []
  | inserted {a} (absent : s.rows.get? (key a) = none) :
      Accounted s (starInserted a.repositoryId (some a)) [.change (.put a)]
  | unstar {id userId} : Accounted s (unstar id userId) []
  | deleted {a} (present : s.rows.get? (key a) = some a) :
      Accounted s (unstarDeleted a.repositoryId 1) [.change (.drop (key a))]
  | settled {r writes id d} (pending : Pending starScale s writes id d)
      (short : d = 0 ∨ s.counters.get? id = none) : Accounted s (.ret r) writes
  | failed {e writes} : Accounted s (.fail e) writes

theorem accounted_nothing {r : StarResult} (id : Uuid) : Accounted s (.ret r) [] :=
  .settled (pending_nil : Pending starScale s [] id 0) (.inl rfl)

/-- The counter statement settles what the change has left short. -/
theorem accounted_setStars {w : Change RepositoryStar (Uuid ×ₗ Uuid)} {id : Uuid} {d : ℤ}
    {f : ℤ → ℤ} {r : StarResult} (hw : Shifts starScale s.rows w id d)
    (hf : ∀ c, s.counters.get? id = some c → f c.stars = c.stars + d) :
    Accounted s (.ret r)
      ((setStars id f (Entry.apply (.change w) s)).2.toList ++ [.change w]) := by
  unfold setStars
  split
  · next c hc =>
    have hc : s.counters.get? id = some c := hc
    have hid : c.id = id := Table.key_of_get? hc
    have hpending : Pending starScale s
        (.count { c with stars := f c.stars } :: (some w).toList.map .change) id (d - d) :=
      .counted hw hc hid (hf c hc)
    exact .settled hpending (.inl (sub_self d))
  · next hnone => exact .settled (pending_change hw) (.inr hnone)

/-- **A statement.** -/
theorem Accounted.statement (hs : Balanced starScale s) (h : Accounted s p writes) {c : StarCall}
    {k : Except DatabaseError (StarResp c) → StarProg StarResult} (hp : p = .call c k) :
    Accounted s (k (execStar c (writes.foldr Entry.apply s)).1)
      ((execStar c (writes.foldr Entry.apply s)).2.toList ++ writes) := by
  cases h with
  | @star id userId =>
    change Prog.call _ _ = _ at hp
    cases hp
    rw [List.foldr_nil]
    cases hc : s.counters.get? id with
    | none =>
      simp only [execStar, hc]
      exact .failed
    | some c =>
      cases ha : s.rows.get? (starKey userId id) with
      | none =>
        simp only [execStar, hc, ha]
        exact .inserted (a := ⟨userId, id⟩) ha
      | some a =>
        simp only [execStar, hc, ha]
        exact accounted_nothing id
  | @inserted a absent =>
    change Prog.call _ _ = _ at hp
    cases hp
    have hset := accounted_setStars (f := (· + 1)) (r := .star (some a)) (shifts_put absent)
      fun _ _ => rfl
    simp only [List.foldr_cons, List.foldr_nil, execStar]
    unfold setStars at hset ⊢
    split at hset <;> exact hset
  | @unstar id userId =>
    change Prog.call _ _ = _ at hp
    cases hp
    rw [List.foldr_nil]
    cases ha : s.rows.get? (starKey userId id) with
    | none =>
      simp only [execStar, ha]
      exact accounted_nothing id
    | some a =>
      have hkey : starKey a.userId a.repositoryId = starKey userId id := Table.key_of_get? ha
      obtain ⟨rfl, rfl⟩ := Prod.mk.inj (toLex.injective hkey)
      simp only [execStar, ha]
      exact .deleted ha
  | @deleted a present =>
    change Prog.call _ _ = _ at hp
    cases hp
    -- the star is still there in the committed rows, so nothing is clamped
    have hset := accounted_setStars (f := fun stars => max (stars - 1) 0) (r := .unstar true)
      (shifts_drop present) fun c hc => by
        have hone := one_le_stars hs present hc
        omega
    simp only [List.foldr_cons, List.foldr_nil, execStar]
    unfold setStars at hset ⊢
    split at hset <;> exact hset
  | settled pending short => cases hp
  | failed => cases hp

/-- What a transaction has accounted for rests on the rows it has written, and
on no counter being added. -/
theorem Accounted.stable (h : Accounted s p writes)
    (hsame : ∀ q ∈ writes.map Entry.place, s'.cell q = s.cell q)
    (hkept : ∀ id, s.counters.get? id = none → s'.counters.get? id = none) :
    Accounted s' p writes := by
  cases h with
  | star => exact .star
  | @inserted a absent =>
    have hrow : s'.rows.get? (key a) = s.rows.get? (key a) :=
      Cell.row.inj (hsame (.row (key a)) (by simp [Entry.place, Change.key]))
    exact .inserted (hrow.trans absent)
  | unstar => exact .unstar
  | @deleted a present =>
    have hrow : s'.rows.get? (key a) = s.rows.get? (key a) :=
      Cell.row.inj (hsame (.row (key a)) (by simp [Entry.place, Change.key]))
    exact .deleted (hrow.trans present)
  | settled pending short =>
    exact .settled (pending.stable hsame) (short.imp_right (hkept _))
  | failed => exact .failed

/-- **Commit.** -/
theorem Accounted.commit {r : StarResult} (hs : Balanced starScale s)
    (h : Accounted s (.ret r) writes) :
    Balanced starScale (writes.foldr Entry.apply s) ∧
      ∀ id, s.counters.get? id = none → (writes.foldr Entry.apply s).counters.get? id = none := by
  generalize hp : (.ret r : StarProg StarResult) = p at h
  cases h with
  | settled pending short => exact ⟨pending.balanced short hs, pending.counter_none⟩
  | star => cases hp
  | inserted absent => cases hp
  | unstar => cases hp
  | deleted present => cases hp
  | failed => cases hp

end Accounted

/-! ### Runs -/

/-- Every counter is right, and no transaction is open. -/
def Initial (P : StarDb) : Prop := Balanced starScale P.store ∧ P.sessions = []

theorem starRules : SessionRules starEngine StarOp.program (fun _ _ => True) (Balanced starScale)
    (fun s s' => ∀ id, s.counters.get? id = none → s'.counters.get? id = none)
    (fun s t => Accounted s t.rest t.writes) where
  start s op _ := by
    cases op with
    | star id userId => exact .star
    | unstar id userId => exact .unstar
  statement P n t c k _ _ hrest _ hs ht := ht.statement hs hrest
  stable s s' t ht hsame hkept := ht.stable hsame hkept
  commit s t r hrest _ hs ht := (hrest ▸ ht : Accounted s (.ret r) t.writes).commit hs

/-- **The counter is the number of stars.** In every state of every run of star
and unstar transactions, whatever is open and however the statements, commits
and rollbacks follow each other, the committed counter of every repository is
the number of its rows in `core.stars`. -/
theorem stars_counted {P : StarDb}
    (h : Reach Initial (Db.next starEngine StarOp.program) (fun _ _ => True) P) :
    ∀ c ∈ P.store.counters.rows, c.stars = (starsOf P.store c.id).length := by
  have hbalanced : Balanced starScale P.store := (sessions_run starRules (fun _ hP => hP) h).store
  intro c hc
  rw [← total_eq_length]
  exact hbalanced c hc

/-- A repository with one star, and no transaction. -/
def oneStar : StarDb :=
  ⟨⟨Table.empty.upsert ⟨1, 7⟩, Table.empty.upsert ⟨7, 1⟩⟩, []⟩

/-- A second user stars while the first takes the star back: the `unstar` waits
for the repository's row until the `star` has committed. -/
def starWhileUnstar : List (TxMove StarOp) :=
  [.start (.star 7 2), .start (.unstar 7 1), .statement 0, .statement 1, .statement 0, .statement 1,
    .commit 0, .statement 1, .commit 1]

theorem stars_counted_starWhileUnstar : ∃ P : StarDb, P.store.counters.rows = [⟨7, 1⟩] ∧
    ∀ c ∈ P.store.counters.rows, c.stars = (starsOf P.store c.id).length :=
  ⟨play (Db.next starEngine StarOp.program) starWhileUnstar oneStar, by decide +kernel,
    stars_counted (reach_play (.start ⟨by decide +kernel, rfl⟩) guarded_true)⟩

end Stars
end Gitdot
