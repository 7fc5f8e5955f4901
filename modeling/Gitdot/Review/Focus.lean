/-
# The review in focus

A review method works on one review and on the refs of its repository.
`Focus` is the two of them, `RepoState.put` the state with both put in, and
the `exec_..._put` lemmas are the calls a method makes for that review: each
rewrites one diff (`Focus.setDiff`) or one ref (`Focus.setRef`), or the
columns of the review's own row.

Key definitions: `Focus`, `Focus.setDiff`, `Focus.setRef`, `RepoState.put`.
Key theorems: `RepoState.put_put`, `exec_createRevision_put`,
`exec_updateRevisionSha_put`, `exec_updateDiff_put`.
-/
import Gitdot.Review.Store

namespace Gitdot

open Lib

/-- A review and the refs of its repository. -/
@[ext] structure Focus where
  review : Review
  refs : Refs

/-- The diff with `v` in place of its revision of that number, or added. -/
def Diff.putRevision (d : Diff) (v : Revision) : Diff :=
  { d with revisions := d.revisions.upsert v }

@[simp] theorem Diff.putRevision_position (d : Diff) (v : Revision) :
    (d.putRevision v).position = d.position := rfl

@[simp] theorem Diff.putRevision_status (d : Diff) (v : Revision) :
    (d.putRevision v).status = d.status := rfl

/-- A revision put in at or above the latest is the latest. -/
theorem Diff.latest?_putRevision {d : Diff} {v w : Revision} (h : d.latest? = some v)
    (hw : v.number ≤ w.number) : (d.putRevision w).latest? = some w :=
  Table.last?_upsert_of_le h hw

theorem Diff.get?_putRevision (d : Diff) (v : Revision) (n : ℤ) :
    (d.putRevision v).revisions.get? n = if n = v.number then some v else d.revisions.get? n :=
  Table.get?_upsert _ _ _

theorem Diff.mem_putRevision {d : Diff} {v w : Revision}
    (h : w ∈ (d.putRevision v).revisions.rows) : w = v ∨ w ∈ d.revisions.rows := by
  rcases Table.mem_upsert.mp h with h | ⟨h, -⟩
  · exact .inl h
  · exact .inr h

/-- The number after the latest is free. -/
theorem Diff.get?_next {d : Diff} {v : Revision} (h : d.latest? = some v) :
    d.revisions.get? (v.number + 1) = none := by
  refine Table.get?_eq_none_iff.mpr fun w hw hwn => ?_
  have := (Table.last?_eq_some_iff.mp h).2 w hw
  simp only [key_revision] at this hwn
  omega

namespace Focus

variable (f : Focus)

/-- The diff at a position. -/
def diff? (position : ℤ) : Option Diff := f.review.diffs.get? position

/-- The focus with the diff `d` at its position. -/
def setDiff (d : Diff) : Focus :=
  { f with review := { f.review with diffs := f.review.diffs.upsert d } }

/-- The focus with a ref pointed at `sha`. -/
def setRef (name : RefName) (sha : Sha) : Focus := { f with refs := f.refs.set name sha }

/-- The ref of a revision of the review. -/
def revisionRef (position number : ℤ) : RefName :=
  getRevisionRef f.review.id.short position number

/-- The ref of the latest revision of a diff of the review. -/
def currentRef (position : ℤ) : RefName := getCurrentRef f.review.id.short position

variable {f}

@[simp] theorem setDiff_id (d : Diff) : (f.setDiff d).review.id = f.review.id := rfl
@[simp] theorem setDiff_status (d : Diff) : (f.setDiff d).review.status = f.review.status := rfl
@[simp] theorem setDiff_targetBranch (d : Diff) :
    (f.setDiff d).review.targetBranch = f.review.targetBranch := rfl
@[simp] theorem setDiff_refs (d : Diff) : (f.setDiff d).refs = f.refs := rfl
@[simp] theorem setRef_review (name : RefName) (sha : Sha) : (f.setRef name sha).review = f.review :=
  rfl
@[simp] theorem setRef_diff? (name : RefName) (sha : Sha) (p : ℤ) :
    (f.setRef name sha).diff? p = f.diff? p := rfl
@[simp] theorem setRef_refs_self (name : RefName) (sha : Sha) :
    (f.setRef name sha).refs name = some sha := Refs.set_self _ _ _
theorem setRef_refs_of_ne {name n : RefName} (sha : Sha) (h : n ≠ name) :
    (f.setRef name sha).refs n = f.refs n := Refs.set_of_ne _ _ h

@[simp] theorem setHeadRef_targetRef (id : ℕ) (sha : Sha) (branch : String) :
    (f.setRef (getHeadRef id) sha).refs (getTargetRef branch) = f.refs (getTargetRef branch) :=
  setRef_refs_of_ne sha nofun

@[simp] theorem setDiff_revisionRef (d : Diff) (p n : ℤ) :
    (f.setDiff d).revisionRef p n = f.revisionRef p n := rfl
@[simp] theorem setDiff_currentRef (d : Diff) (p : ℤ) :
    (f.setDiff d).currentRef p = f.currentRef p := rfl
@[simp] theorem setRef_revisionRef (name : RefName) (sha : Sha) (p n : ℤ) :
    (f.setRef name sha).revisionRef p n = f.revisionRef p n := rfl
@[simp] theorem setRef_currentRef (name : RefName) (sha : Sha) (p : ℤ) :
    (f.setRef name sha).currentRef p = f.currentRef p := rfl

theorem diff?_setDiff (d : Diff) (p : ℤ) :
    (f.setDiff d).diff? p = if p = d.position then some d else f.diff? p :=
  Table.get?_upsert _ _ _

@[simp] theorem diff?_setDiff_self (d : Diff) : (f.setDiff d).diff? d.position = some d := by
  rw [diff?_setDiff, if_pos rfl]

theorem diff?_setDiff_of_ne (d : Diff) {p : ℤ} (h : p ≠ d.position) :
    (f.setDiff d).diff? p = f.diff? p := by
  rw [diff?_setDiff, if_neg h]

theorem position_of_diff? {p : ℤ} {d : Diff} (h : f.diff? p = some d) : d.position = p :=
  Table.key_of_get? h

theorem diff?_iff_mem {p : ℤ} {d : Diff} :
    f.diff? p = some d ↔ d ∈ f.review.diffs.rows ∧ d.position = p := Table.get?_eq_some_iff

theorem diff?_of_mem {d : Diff} (h : d ∈ f.review.diffs.rows) : f.diff? d.position = some d :=
  Table.get?_key h

theorem setDiff_setDiff {d d' : Diff} (h : d'.position = d.position) :
    (f.setDiff d).setDiff d' = f.setDiff d' := by
  unfold setDiff
  simp only [Table.upsert_upsert (a := d) (b := d') h]

theorem setDiff_self {d : Diff} (h : f.diff? d.position = some d) : f.setDiff d = f := by
  unfold setDiff
  rw [Table.upsert_self (a := d) h]

theorem setRef_self {name : RefName} {sha : Sha} (h : f.refs name = some sha) :
    f.setRef name sha = f := by
  refine Focus.ext rfl (funext fun n => ?_)
  by_cases hn : n = name
  · subst hn
    rw [setRef_refs_self, h]
  · exact setRef_refs_of_ne sha hn

@[simp] theorem revisionRef_ne_currentRef (p n p' : ℤ) : f.revisionRef p n ≠ f.currentRef p' := by
  simp [revisionRef, currentRef, getRevisionRef, getCurrentRef]

@[simp] theorem currentRef_ne_revisionRef (p n p' : ℤ) : f.currentRef p' ≠ f.revisionRef p n :=
  (revisionRef_ne_currentRef p n p').symm

/-- Everything but the diff at `p` and the refs of that diff is the same. -/
structure SameBut (p : ℤ) (f f' : Focus) : Prop where
  review : f'.review = { f.review with diffs := f'.review.diffs }
  diff? : ∀ k, k ≠ p → f'.diff? k = f.diff? k
  refs : ∀ name, (∀ n, name ≠ f.revisionRef p n) → name ≠ f.currentRef p → f'.refs name = f.refs name

namespace SameBut

variable {p : ℤ} {f' f'' : Focus}

theorem refl (p : ℤ) (f : Focus) : SameBut p f f := ⟨rfl, fun _ _ => rfl, fun _ _ _ => rfl⟩

theorem id_eq (h : SameBut p f f') : f'.review.id = f.review.id := by rw [h.review]

theorem status_eq (h : SameBut p f f') : f'.review.status = f.review.status := by rw [h.review]

theorem number_eq (h : SameBut p f f') : f'.review.number = f.review.number := by rw [h.review]

theorem revisionRef_eq (h : SameBut p f f') (k n : ℤ) : f'.revisionRef k n = f.revisionRef k n := by
  simp only [revisionRef, h.id_eq]

theorem currentRef_eq (h : SameBut p f f') (k : ℤ) : f'.currentRef k = f.currentRef k := by
  simp only [currentRef, h.id_eq]

theorem trans (h : SameBut p f f') (h' : SameBut p f' f'') : SameBut p f f'' where
  review := by rw [h'.review, h.review]
  diff? k hk := (h'.diff? k hk).trans (h.diff? k hk)
  refs name hr hc := (h'.refs name (fun n => by rw [h.revisionRef_eq]; exact hr n)
    (by rw [h.currentRef_eq]; exact hc)).trans (h.refs name hr hc)

theorem setDiff {d : Diff} (h : d.position = p) : SameBut p f (f.setDiff d) where
  review := rfl
  diff? _ hk := diff?_setDiff_of_ne d (h ▸ hk)
  refs _ _ _ := rfl

theorem setRevisionRef (n : ℤ) (sha : Sha) : SameBut p f (f.setRef (f.revisionRef p n) sha) where
  review := rfl
  diff? _ _ := rfl
  refs _ hr _ := setRef_refs_of_ne sha (hr n)

theorem setCurrentRef (sha : Sha) : SameBut p f (f.setRef (f.currentRef p) sha) where
  review := rfl
  diff? _ _ := rfl
  refs _ _ hc := setRef_refs_of_ne sha hc

/-- The refs of the revisions of another review or of another diff are the same. -/
theorem refs_getRevisionRef (h : SameBut p f f') {j : ℕ} {k : ℤ}
    (hother : j ≠ f.review.id.short ∨ k ≠ p) (n : ℤ) :
    f'.refs (getRevisionRef j k n) = f.refs (getRevisionRef j k n) := by
  refine h.refs _ (fun m he => ?_) (fun he => RefName.noConfusion he)
  obtain ⟨hj, hk, -⟩ := RefName.revision.inj he
  exact hother.elim (· hj) (· hk)

/-- So are their current refs. -/
theorem refs_getCurrentRef (h : SameBut p f f') {j : ℕ} {k : ℤ}
    (hother : j ≠ f.review.id.short ∨ k ≠ p) :
    f'.refs (getCurrentRef j k) = f.refs (getCurrentRef j k) := by
  refine h.refs _ (fun m he => RefName.noConfusion he) (fun he => ?_)
  obtain ⟨hj, hk⟩ := RefName.current.inj he
  exact hother.elim (· hj) (· hk)

end SameBut

end Focus

/-! ### The state with the focus put in -/

namespace RepoState

/-- The state with the review of the focus in place of the one of its id, or
added, and with the refs of the focus. -/
def put (s : RepoState) (f : Focus) : RepoState :=
  { s with reviews := s.reviews.upsert f.review, refs := f.refs }

/-- The focus on a review of the state. -/
def focus (s : RepoState) (r : Review) : Focus := ⟨r, s.refs⟩

variable {s : RepoState} {r : Review} {f f' : Focus}

@[simp] theorem put_refs : (s.put f).refs = f.refs := rfl
@[simp] theorem put_repository : (s.put f).repository = s.repository := rfl
@[simp] theorem focus_review : (s.focus r).review = r := rfl
@[simp] theorem focus_refs : (s.focus r).refs = s.refs := rfl
@[simp] theorem focus_diff? (p : ℤ) : (s.focus r).diff? p = r.diffs.get? p := rfl

theorem get?_put (id : Uuid) :
    (s.put f).reviews.get? id = if id = f.review.id then some f.review else s.reviews.get? id :=
  Table.get?_upsert _ _ _

@[simp] theorem get?_put_self : (s.put f).reviews.get? f.review.id = some f.review := by
  rw [get?_put, if_pos rfl]

theorem put_focus (h : s.reviews.get? r.id = some r) : s.put (s.focus r) = s := by
  unfold put focus
  rw [Table.upsert_self (a := r) h]

@[simp] theorem focus_put : (s.put f).focus f.review = f := rfl

theorem put_put (h : f'.review.id = f.review.id) : (s.put f).put f' = s.put f' := by
  unfold put
  simp only [Table.upsert_upsert (a := f.review) (b := f'.review) h]

/-- The review of the focus is found under its number if it takes the place of
the one that was. -/
theorem getReviewByNumber_put {number : ℤ} (h : s.getReviewByNumber number = some r)
    (hid : f.review.id = r.id) (hn : f.review.number = number) :
    (s.put f).getReviewByNumber number = some f.review :=
  Table.find?_upsert h hid.symm (by simpa using hn)

theorem put_injective (h : s.put f = s.put f') (hid : f.review.id = f'.review.id) : f = f' := by
  refine Focus.ext ?_ (congrArg RepoState.refs h)
  have h1 : (s.put f').reviews.get? f'.review.id = some f.review := by
    rw [← h, ← hid, get?_put_self]
  rw [get?_put_self] at h1
  exact (Option.some.inj h1).symm

/-- A review of the state with a focus put in is that of the focus or one of
the others. -/
theorem get?_put_cases {id : Uuid} {x : Review} (hx : (s.put f).reviews.get? id = some x) :
    (id = f.review.id ∧ x = f.review) ∨ (id ≠ f.review.id ∧ s.reviews.get? id = some x) := by
  rw [get?_put] at hx
  split_ifs at hx with hid
  · exact .inl ⟨hid, (Option.some.inj hx).symm⟩
  · exact .inr ⟨hid, hx⟩

/-- What holds of every review still does if it holds of the one put in. -/
theorem forall_put {P : Review → Prop} (h : ∀ r ∈ s.reviews.rows, P r) (hf : P f.review) :
    ∀ r ∈ (s.put f).reviews.rows, P r := fun _ hr => by
  rcases get?_put_cases (Table.get?_key hr) with ⟨-, rfl⟩ | ⟨-, hr⟩
  · exact hf
  · exact h _ (Table.mem_rows_of_get? hr)

theorem setDiffs_put (g : Table Diff → Table Diff) :
    (s.put f).setDiffs f.review.id g =
      s.put { f with review := { f.review with diffs := g f.review.diffs } } := by
  unfold setDiffs
  rw [Table.modify_eq_upsert get?_put_self]
  exact congrArg (fun t => { s with reviews := t, refs := f.refs })
    (Table.upsert_upsert (a := f.review) (b := { f.review with diffs := g f.review.diffs }) rfl)

end RepoState

/-! ### The calls on the review in focus -/

section Calls

variable {g : Git} {draw : Uuid} {s : RepoState} {f : Focus}

@[simp] theorem exec_updateRef_put (name : RefName) (sha : Sha) :
    exec g draw (.updateRef name sha) (s.put f) = (.ok (), s.put (f.setRef name sha)) := rfl

theorem exec_resolveRefSha {name : RefName} {sha : Sha} (h : s.refs name = some sha) :
    exec g draw (.resolveRefSha name) s = (.ok sha, s) := by
  simp only [exec, RepoState.resolveRefSha, h]

theorem exec_resolveRefSha_missing {name : RefName} (h : s.refs name = none) :
    exec g draw (.resolveRefSha name) s = (.error (.git (.notFound "revspec not found")), s) := by
  simp only [exec, RepoState.resolveRefSha, h]

theorem exec_createRef_put {name : RefName} (sha : Sha) (h : f.refs name = none) :
    exec g draw (.createRef name sha) (s.put f) = (.ok (), s.put (f.setRef name sha)) := by
  simp only [exec, RepoState.createRef, RepoState.put_refs, h]
  rfl

/-- The error of a ref that is created twice. -/
def refTaken : CallError := .git (.git2Error "reference with that name already exists")

theorem exec_createRef_taken {name : RefName} {old : Sha} (sha : Sha) (h : f.refs name = some old) :
    exec g draw (.createRef name sha) (s.put f) = (.error refTaken, s.put f) := by
  simp only [exec, RepoState.createRef, RepoState.put_refs, h, refTaken]

theorem exec_createDiff_put {position : ℤ} (message : String) (h : f.diff? position = none) :
    exec g draw (.createDiff f.review.id position message) (s.put f) =
      (.ok ⟨position, message, .draft, .empty⟩,
        s.put (f.setDiff ⟨position, message, .draft, .empty⟩)) := by
  have hi : f.review.diffs.insert? ⟨position, message, .draft, .empty⟩ = some _ :=
    Table.insert?_eq_upsert (a := (⟨position, message, .draft, .empty⟩ : Diff)) h
  simp only [exec, RepoState.createDiff, RepoState.get?_put_self, hi, RepoState.setDiffs_put]
  rfl

theorem exec_updateDiff_put {position : ℤ} {status : Option DiffStatus} {message : Option String}
    {d : Diff} (h : f.diff? position = some d) :
    exec g draw (.updateDiff ⟨f.review.id, position⟩ status message) (s.put f) =
      (.ok (), s.put (f.setDiff
        { d with status := status.getD d.status, message := message.getD d.message })) := by
  simp only [exec, RepoState.updateDiff, RepoState.setDiffs_put, Table.modify_eq_upsert h]
  rfl

theorem exec_createRevision_put {position number : ℤ} (commitHash parentHash : Sha) {d : Diff}
    (h : f.diff? position = some d) (hn : d.revisions.get? number = none) :
    exec g draw (.createRevision ⟨f.review.id, position⟩ number commitHash parentHash) (s.put f) =
      (.ok ⟨number, commitHash, parentHash⟩,
        s.put (f.setDiff (d.putRevision ⟨number, commitHash, parentHash⟩))) := by
  have hi := Table.insert?_eq_upsert (a := (⟨number, commitHash, parentHash⟩ : Revision)) hn
  have hd : f.review.diffs.get? position = some d := h
  simp only [exec, RepoState.createRevision, RepoState.get?_put_self, Option.bind_some, hd, hi,
    RepoState.setDiffs_put, Table.modify_eq_upsert hd]
  rfl

theorem exec_updateRevisionSha_put {position number : ℤ} (commitHash parentHash : Sha) {d : Diff}
    {v : Revision} (h : f.diff? position = some d) (hv : d.revisions.get? number = some v) :
    exec g draw (.updateRevisionSha ⟨⟨f.review.id, position⟩, number⟩ commitHash parentHash)
        (s.put f) =
      (.ok (), s.put (f.setDiff (d.putRevision ⟨number, commitHash, parentHash⟩))) := by
  have hn : v.number = number := Table.key_of_get? hv
  simp only [exec, RepoState.updateRevisionSha, RepoState.setDiffs_put, Table.modify_eq_upsert h,
    Table.modify_eq_upsert hv, hn]
  rfl

/-- An update that gives no column only touches `updated_at`. -/
theorem exec_updateReview_none (id : Uuid) :
    exec g draw (.updateReview id none none none) s = (.ok (), s) := by
  simp only [exec, RepoState.updateReview, Option.getD_none]
  rw [Table.modify_eq_self fun _ _ => rfl]

theorem exec_updateReview_put (status : Option ReviewStatus) (title description : Option String) :
    exec g draw (.updateReview f.review.id status title description) (s.put f) =
      (.ok (), s.put { f with review := { f.review with
        status := status.getD f.review.status
        title := title.getD f.review.title
        description := description.getD f.review.description } }) := by
  simp only [exec, RepoState.updateReview, Table.modify_eq_upsert RepoState.get?_put_self]
  exact congrArg (fun t => (Except.ok (), RepoState.mk s.repository t f.refs))
    (Table.upsert_upsert (a := f.review) (b := { f.review with
      status := status.getD f.review.status
      title := title.getD f.review.title
      description := description.getD f.review.description }) rfl)

theorem exec_createReview_put (repository author : Uuid) (targetBranch : String)
    (h : s.reviews.get? draw = none) :
    exec g draw (.createReview repository author targetBranch) s =
      (.ok (s.newReview draw author targetBranch),
        s.put (s.focus (s.newReview draw author targetBranch))) := by
  simp only [exec, RepoState.createReview, Table.insert?_eq_upsert
    (a := s.newReview draw author targetBranch) h]
  rfl

theorem exec_createReview_taken (repository author : Uuid) (targetBranch : String) {old : Review}
    (h : s.reviews.get? draw = some old) :
    exec g draw (.createReview repository author targetBranch) s =
      (.error (.database .uniqueViolation), s) := by
  have hnone : s.reviews.insert? (s.newReview draw author targetBranch) = none :=
    Table.insert?_eq_none_iff.mpr ⟨old, h⟩
  simp only [exec, RepoState.createReview, hnone]

end Calls

-- from here on `put` is known by its lemmas only
attribute [irreducible] RepoState.put

end Gitdot
