/-
# The refs of a review and its revision rows

A create, an update and a merge each write some part of a revision's row, the
ref of the revision and the current ref of its diff. The two agree after every
create and update that succeeds. A merge that rebases moves the current ref
and the row of the latest revision and leaves the ref of the revision behind,
so they agree after it exactly if what was picked is the commit itself
(`merge_keeps_refs_iff`).

Refs carry eight digits of the review's id. That two reviews of a repository
never share them is part of the invariant (`RefsInv`): the first ref of a
review is created, not updated, so a create with digits that are taken fails.

Key definitions: `RefsAgree`, `KeepsRefs`, `RefsInv`.
Key theorems: `agrees_pushAll`, `agrees_rebaseAll_iff`,
`merge_keeps_refs_iff`, `refs_agree`.
-/
import Gitdot.Review.Run

namespace Gitdot

open Lib Prog

/-- The refs of a diff point to the commits of its rows: that of a revision to
the revision's, the current one to the latest revision's. -/
structure DiffAgrees (refs : Refs) (id : ℕ) (d : Diff) : Prop where
  revision : ∀ v ∈ d.revisions.rows, refs (getRevisionRef id d.position v.number) = some v.commitHash
  current : ∀ v ∈ d.latest?, refs (getCurrentRef id d.position) = some v.commitHash

/-- The refs of the review's diffs point to the commits of their rows. -/
def Agrees (refs : Refs) (r : Review) : Prop := ∀ d ∈ r.diffs.rows, DiffAgrees refs r.id.short d

/-- Git refs and the revision table agree. -/
def RefsAgree (s : RepoState) : Prop := ∀ r ∈ s.reviews.rows, Agrees s.refs r

instance (refs : Refs) (id : ℕ) (d : Diff) : Decidable (DiffAgrees refs id d) :=
  decidable_of_iff
    ((∀ v ∈ d.revisions.rows, refs (getRevisionRef id d.position v.number) = some v.commitHash) ∧
      ∀ v ∈ d.latest?, refs (getCurrentRef id d.position) = some v.commitHash)
    ⟨fun h => ⟨h.1, h.2⟩, fun h => ⟨h.revision, h.current⟩⟩

instance (s : RepoState) : Decidable (RefsAgree s) :=
  inferInstanceAs (Decidable (∀ r ∈ s.reviews.rows, ∀ d ∈ r.diffs.rows,
    DiffAgrees s.refs r.id.short d))

/-- Each commit, picked onto the one before it, is that commit again. -/
def PicksSame (g : Git) : Sha → List (Diff × Revision) → Prop
  | _, [] => True
  | parent, p :: rest =>
    g.cherryPickCommit p.2.commitHash parent = .ok p.2.commitHash ∧ PicksSame g p.2.commitHash rest

/-- A merge that does not fast-forward picks commits onto where they are. -/
def RebasesInPlace (g : Git) (s : RepoState) (request : MergeReviewDiffRequest) : Prop :=
  ∀ i ∈ mergeInput s request, i.2.2.2 ≠ i.2.1.2.parentHash →
    PicksSame g i.2.2.2 (i.2.1 :: i.2.2.1)

/-- The creates, updates and merges of the run succeed. -/
def Succeeds (g : Git) (s : RepoState) : Event → Prop
  | .createReview draw plan request => (run (handler g draw) (createReview request) plan s).1.isOk
  | .processReviewUpdate plan request => (call g plan (processReviewUpdate request) s).1.isOk
  | .mergeReviewDiff plan request => (call g plan (mergeReviewDiff request) s).1.isOk
  | _ => True

/-- The merges of the run rewrite no commit. -/
def MergesInPlace (g : Git) (s : RepoState) : Event → Prop
  | .mergeReviewDiff _ request => RebasesInPlace g s request
  | _ => True

/-- The guard of the runs in which refs and rows agree. -/
def KeepsRefs (g : Git) (s : RepoState) (e : Event) : Prop := Succeeds g s e ∧ MergesInPlace g s e

section Decide

variable (g : Git) (s : RepoState)

instance decidablePicksSame : (parent : Sha) → (sel : List (Diff × Revision)) →
    Decidable (PicksSame g parent sel)
  | _, [] => .isTrue trivial
  | _, p :: rest => @instDecidableAnd _ _ _ (decidablePicksSame p.2.commitHash rest)

instance : (e : Event) → Decidable (Succeeds g s e)
  | .createReview draw plan request => inferInstanceAs (Decidable
    ((run (handler g draw) (createReview request) plan s).1.isOk = true))
  | .processReviewUpdate plan request => inferInstanceAs (Decidable
    ((call g plan (processReviewUpdate request) s).1.isOk = true))
  | .mergeReviewDiff plan request => inferInstanceAs (Decidable
    ((call g plan (mergeReviewDiff request) s).1.isOk = true))
  | .publishReview .. | .publishReviewDiff .. | .updateReview .. | .updateReviewDiff .. | .push .. =>
    .isTrue trivial

instance : (e : Event) → Decidable (MergesInPlace g s e)
  | .mergeReviewDiff _ request => inferInstanceAs (Decidable (∀ i ∈ mergeInput s request,
    i.2.2.2 ≠ i.2.1.2.parentHash → PicksSame g i.2.2.2 (i.2.1 :: i.2.2.1)))
  | .createReview .. | .processReviewUpdate .. | .publishReview .. | .publishReviewDiff ..
  | .updateReview .. | .updateReviewDiff .. | .push .. => .isTrue trivial

instance (e : Event) : Decidable (KeepsRefs g s e) :=
  inferInstanceAs (Decidable (Succeeds g s e ∧ MergesInPlace g s e))

end Decide

section

variable {g : Git} {s s' : RepoState} {f f' : Focus} {refs refs' : Refs} {r : Review}

/-! ### One review -/

/-- A diff agrees with other refs and other columns if its revisions and the
refs of its position are the same. -/
theorem DiffAgrees.congr {id : ℕ} {d d' : Diff} (h : DiffAgrees refs id d)
    (hpos : d'.position = d.position) (hrev : d'.revisions = d.revisions)
    (hr : ∀ n, refs' (getRevisionRef id d.position n) = refs (getRevisionRef id d.position n))
    (hc : refs' (getCurrentRef id d.position) = refs (getCurrentRef id d.position)) :
    DiffAgrees refs' id d' where
  revision v hv := by
    rw [hrev] at hv
    rw [hpos, hr]
    exact h.revision v hv
  current v hv := by
    have hlatest : d'.latest? = d.latest? := congrArg Table.last? hrev
    rw [hlatest] at hv
    rw [hpos, hc]
    exact h.current v hv

/-- Rewriting columns of diffs other than their revisions keeps the agreement. -/
theorem agrees_of_diffs (h : Agrees f.refs f.review) (hid : f'.review.id = f.review.id)
    (hr : ∀ k n, f'.refs (f.revisionRef k n) = f.refs (f.revisionRef k n))
    (hc : ∀ k, f'.refs (f.currentRef k) = f.refs (f.currentRef k))
    (hd : ∀ k d', f'.diff? k = some d' → ∃ d, f.diff? k = some d ∧ d'.revisions = d.revisions) :
    Agrees f'.refs f'.review := by
  intro d' hd'
  obtain ⟨d, hget, hrev⟩ := hd d'.position d' (Focus.diff?_of_mem hd')
  obtain ⟨hmem, hpos⟩ := Focus.diff?_iff_mem.mp hget
  rw [hid]
  exact (h d hmem).congr hpos.symm hrev (fun n => hr d.position n) (hc d.position)

/-- After work on one position the review agrees if the diff there does. -/
theorem agrees_sameBut {p : ℤ} (h : Agrees f.refs f.review) (hsame : f.SameBut p f')
    (hp : ∀ d', f'.diff? p = some d' → DiffAgrees f'.refs f'.review.id.short d') :
    Agrees f'.refs f'.review := by
  intro d' hd'
  have hget := Focus.diff?_of_mem hd'
  by_cases hk : d'.position = p
  · exact hp d' (hk ▸ hget)
  · rw [hsame.diff? _ hk] at hget
    rw [hsame.id_eq]
    exact (h d' (Focus.diff?_iff_mem.mp hget).1).congr rfl rfl
      (fun n => hsame.refs_getRevisionRef (.inr hk) n) (hsame.refs_getCurrentRef (.inr hk))

/-- A revision put in at the end together with both its refs. -/
theorem diffAgrees_withRevisionRefs {p n : ℤ} {prev : Sha} {c : Commit} {d : Diff}
    (hpos : d.position = p)
    (hold : ∀ v ∈ d.revisions.rows, f.refs (f.revisionRef p v.number) = some v.commitHash)
    (hn : ∀ v ∈ d.revisions.rows, v.number ≤ n) :
    DiffAgrees (f.withRevisionRefs p prev c d n).refs f.review.id.short
      (d.putRevision ⟨n, c.sha, prev⟩) where
  revision v hv := by
    rw [Diff.putRevision_position, hpos]
    have hcur : (f.withRevisionRefs p prev c d n).refs (f.revisionRef p v.number) =
        ((f.withRevision prev c d n).setRef (f.revisionRef p n) c.sha).refs
          (f.revisionRef p v.number) :=
      Focus.setRef_refs_of_ne _ (Focus.revisionRef_ne_currentRef _ _ _)
    refine hcur.trans ?_
    rcases Table.mem_upsert.mp hv with rfl | ⟨hmem, hne⟩
    · exact Focus.setRef_refs_self _ _
    · have hother : f.revisionRef p v.number ≠ f.revisionRef p n := by
        intro he
        simp only [Focus.revisionRef, getRevisionRef, RefName.revision.injEq] at he
        exact hne he.2.2
      exact (Focus.setRef_refs_of_ne _ hother).trans (hold v hmem)
  current v hv := by
    have hlast : (d.putRevision ⟨n, c.sha, prev⟩).latest? = some ⟨n, c.sha, prev⟩ :=
      Table.last?_upsert hn
    obtain rfl := Option.some.inj (hlast.symm.trans hv)
    rw [Diff.putRevision_position, hpos]
    exact Focus.setRef_refs_self _ _

/-- **One position.** A commit pushed to a position leaves refs and rows in
agreement. -/
theorem agrees_pushAt {p : ℤ} {prev : Sha} {c : Commit} (h : Agrees f.refs f.review)
    (hpush : f.pushAt g p prev c = some f') : Agrees f'.refs f'.review := by
  have hsame := Focus.sameBut_pushAt hpush
  refine agrees_sameBut h hsame fun d' hd' => ?_
  rw [hsame.id_eq]
  rcases Focus.pushAt_cases hpush with
    ⟨-, -, -, rfl⟩ | ⟨d, v, hd, hv, -, rfl⟩ | ⟨d, v, hd, hv, -, -, rfl⟩
  · have hnew : (f.afterNew p prev c).diff? p = some _ :=
      Focus.diff?_withRevisionRefs (d := newDiff p c) rfl 1
    obtain rfl := Option.some.inj (hnew.symm.trans hd')
    exact diffAgrees_withRevisionRefs rfl (fun v hv => nomatch hv) fun v hv => nomatch hv
  · obtain ⟨hmem, rfl⟩ := Focus.diff?_iff_mem.mp hd
    have hrow : (f.afterUnchanged d.position prev c d v.number).diff? d.position = some _ :=
      Focus.diff?_withRevisionRefs rfl v.number
    obtain rfl := Option.some.inj (hrow.symm.trans hd')
    exact diffAgrees_withRevisionRefs rfl (h d hmem).revision (Table.last?_eq_some_iff.mp hv).2
  · obtain ⟨hmem, rfl⟩ := Focus.diff?_iff_mem.mp hd
    obtain rfl := Option.some.inj ((Focus.diff?_setDiff_self _).symm.trans hd')
    have hle : ∀ w ∈ d.revisions.rows, w.number ≤ v.number + 1 := fun w hw =>
      ((Table.last?_eq_some_iff.mp hv).2 w hw).trans (Int.le_add_one le_rfl)
    exact (diffAgrees_withRevisionRefs rfl (h d hmem).revision hle).congr rfl rfl
      (fun _ => rfl) rfl

theorem agrees_pushAll : ∀ {commits : List Commit} {p : ℤ} {prev : Sha} {f f' : Focus},
    Agrees f.refs f.review → f.pushAll g p prev commits = some f' → Agrees f'.refs f'.review
  | [], _, _, _, _, h, hall => Option.some.inj hall ▸ h
  | _ :: _, _, _, _, _, h, hall => by
    obtain ⟨f₁, h₁, hrest⟩ := Focus.pushAll_cons.mp hall
    exact agrees_pushAll (agrees_pushAt h h₁) hrest

/-- A rebase does not move the refs of revisions. -/
theorem RebasePartly.revisionRefs {parent : Sha} {sel : List (Diff × Revision)}
    (h : RebasePartly g parent sel f f') (k n : ℤ) :
    f'.refs (f.revisionRef k n) = f.refs (f.revisionRef k n) := by
  induction h with
  | stop => rfl
  | half => rfl
  | step _ _ ih => exact ih.trans (Focus.setRef_refs_of_ne _ nofun)

/-- A diff rebased in place still agrees with its refs. -/
theorem agrees_rebaseAt {d : Diff} {v : Revision} (h : Agrees f.refs f.review)
    (hd : f.diff? d.position = some d) (hv : d.latest? = some v) (parent : Sha) :
    Agrees (f.rebaseAt d v parent v.commitHash).refs (f.rebaseAt d v parent v.commitHash).review := by
  refine agrees_sameBut h (f.sameBut_rebaseAt d v parent v.commitHash) fun d' hd' => ?_
  have hrow : (f.rebaseAt d v parent v.commitHash).diff? d.position =
      some (d.putRevision ⟨v.number, v.commitHash, parent⟩) :=
    Focus.diff?_setDiff_self (d.putRevision ⟨v.number, v.commitHash, parent⟩)
  obtain rfl := Option.some.inj (hrow.symm.trans hd')
  have hagrees := h d (Focus.diff?_iff_mem.mp hd).1
  constructor
  · intro w hw
    have hrev : (f.rebaseAt d v parent v.commitHash).refs (f.revisionRef d.position w.number) =
        f.refs (f.revisionRef d.position w.number) :=
      Focus.setRef_refs_of_ne _ nofun
    refine hrev.trans ?_
    rcases Diff.mem_putRevision hw with rfl | hw
    · exact hagrees.revision v (Table.mem_of_last? hv)
    · exact hagrees.revision w hw
  · intro w hw
    have hlast : (d.putRevision ⟨v.number, v.commitHash, parent⟩).latest? =
        some ⟨v.number, v.commitHash, parent⟩ := Diff.latest?_putRevision hv le_rfl
    obtain rfl := Option.some.inj (hlast.symm.trans hw)
    exact Focus.setRef_refs_self _ _

/-- **Rebases.** After a rebase that gets through, refs and rows agree exactly
if each commit was picked onto where it is. -/
theorem agrees_rebaseAll_iff : ∀ {sel : List (Diff × Revision)} {parent sha : Sha} {f f' : Focus},
    Agrees f.refs f.review → Selects f sel → f.rebaseAll g parent sel = some (f', sha) →
      (Agrees f'.refs f'.review ↔ PicksSame g parent sel)
  | [], _, _, _, _, h, _, hall => by
    cases hall
    exact iff_of_true h trivial
  | (d, v) :: rest, parent, sha, f, f', h, hsel, hall => by
    have hpart := Focus.rebaseAll_partly hall
    unfold Focus.rebaseAll at hall
    split at hall
    · next new hpick =>
      have hsame := f.sameBut_rebaseAt d v parent new
      have hrow : f'.diff? d.position = some (d.putRevision ⟨v.number, new, parent⟩) := by
        rw [(Focus.rebaseAll_partly hall).diff?_of_not_selected (List.nodup_cons.mp hsel.nodup).1]
        exact Focus.diff?_setDiff_self (d.putRevision ⟨v.number, new, parent⟩)
      by_cases hnew : new = v.commitHash
      · subst hnew
        rw [agrees_rebaseAll_iff (agrees_rebaseAt h hsel.head.1 hsel.head.2 parent)
          (hsel.tail hsame) hall]
        exact ⟨fun hrest => ⟨hpick, hrest⟩, And.right⟩
      · refine iff_of_false (fun hagrees => hnew ?_) fun hpicks => ?_
        · -- the ref of the latest revision has stayed where it was
          have hmem := (Focus.diff?_iff_mem.mp hrow).1
          have hnow := (hagrees _ hmem).revision _ (Table.mem_upsert.mpr (.inl rfl))
          have hold := (h d (Focus.diff?_iff_mem.mp hsel.head.1).1).revision v
            (Table.mem_of_last? hsel.head.2)
          rw [hpart.id_eq] at hnow
          have hkept := hpart.revisionRefs d.position v.number
          exact Option.some.inj (hnow.symm.trans (hkept.trans hold))
        · exact hnew (Except.ok.inj (hpick.symm.trans hpicks.1))
    · cases hall

theorem moved_refs (commit : Sha) (sel : List (Diff × Revision)) (status : Option ReviewStatus) :
    (((f.moveTarget commit).markAll sel).setStatus status).refs = (f.moveTarget commit).refs :=
  Focus.markAll_refs sel (f.moveTarget commit)

theorem moved_id (commit : Sha) (sel : List (Diff × Revision)) (status : Option ReviewStatus) :
    (((f.moveTarget commit).markAll sel).setStatus status).review.id = f.review.id :=
  Focus.markAll_id sel (f.moveTarget commit)

/-- What a merge does once its diffs are landed does not touch revisions. -/
theorem diff?_moved (commit : Sha) (sel : List (Diff × Revision)) (status : Option ReviewStatus)
    (k : ℤ) :
    (((f.moveTarget commit).markAll sel).setStatus status).diff? k = f.diff? k ∨
      ∃ d, f.diff? k = some d ∧
        (((f.moveTarget commit).markAll sel).setStatus status).diff? k =
          some { d with status := .merged } := by
  have hmove : (f.moveTarget commit).diff? k = f.diff? k := rfl
  rw [Focus.setStatus_diff?, Focus.diff?_markAll, hmove]
  split_ifs
  · cases f.diff? k with
    | none => exact .inl rfl
    | some d => exact .inr ⟨d, rfl, rfl⟩
  · exact .inl rfl

/-- A merge agrees after its last step exactly if it did once its diffs were
landed. -/
theorem agrees_moved_iff (commit : Sha) (sel : List (Diff × Revision))
    (status : Option ReviewStatus) :
    Agrees (((f.moveTarget commit).markAll sel).setStatus status).refs
        (((f.moveTarget commit).markAll sel).setStatus status).review ↔
      Agrees f.refs f.review := by
  have hid := moved_id (f := f) commit sel status
  have hrefs : ∀ name, (∀ branch, name ≠ getTargetRef branch) →
      (((f.moveTarget commit).markAll sel).setStatus status).refs name = f.refs name := by
    intro name hname
    rw [moved_refs]
    exact Focus.setRef_refs_of_ne _ (hname _)
  constructor
  · intro h
    refine agrees_of_diffs h hid.symm (fun k n => (hrefs (getRevisionRef _ k n) fun _ => nofun).symm)
      (fun k => (hrefs (getCurrentRef _ k) fun _ => nofun).symm) fun k d hd => ?_
    rcases diff?_moved (f := f) commit sel status k with hk | ⟨d', hd', hk⟩
    · exact ⟨d, hk.trans hd, rfl⟩
    · obtain rfl := Option.some.inj (hd.symm.trans hd')
      exact ⟨_, hk, rfl⟩
  · intro h
    refine agrees_of_diffs h hid (fun k n => hrefs _ fun _ => nofun)
      (fun k => hrefs _ fun _ => nofun) fun k d hd => ?_
    rcases diff?_moved (f := f) commit sel status k with hk | ⟨d', hd', hk⟩
    · exact ⟨d, hk.symm.trans hd, rfl⟩
    · obtain rfl := Option.some.inj (hd.symm.trans hk)
      exact ⟨d', hd', rfl⟩

/-! ### The other reviews -/

/-- The refs of all reviews but the one with these digits are the same. -/
structure SameOutside (id : ℕ) (refs refs' : Refs) : Prop where
  revision : ∀ j, j ≠ id → ∀ k n, refs' (getRevisionRef j k n) = refs (getRevisionRef j k n)
  current : ∀ j, j ≠ id → ∀ k, refs' (getCurrentRef j k) = refs (getCurrentRef j k)

namespace SameOutside

variable {id : ℕ} {refs'' : Refs}

theorem refl (id : ℕ) (refs : Refs) : SameOutside id refs refs :=
  ⟨fun _ _ _ _ => rfl, fun _ _ _ => rfl⟩

theorem trans (h : SameOutside id refs refs') (h' : SameOutside id refs' refs'') :
    SameOutside id refs refs'' where
  revision j hj k n := (h'.revision j hj k n).trans (h.revision j hj k n)
  current j hj k := (h'.current j hj k).trans (h.current j hj k)

theorem of_sameBut {p : ℤ} (h : f.SameBut p f') : SameOutside f.review.id.short f.refs f'.refs where
  revision _ hj _ n := h.refs_getRevisionRef (.inl hj) n
  current _ hj _ := h.refs_getCurrentRef (.inl hj)

theorem setRef {name : RefName} (sha : Sha) (hr : ∀ j k n, name ≠ getRevisionRef j k n)
    (hc : ∀ j k, name ≠ getCurrentRef j k) : SameOutside id refs (refs.set name sha) where
  revision j _ k n := Refs.set_of_ne _ _ (hr j k n).symm
  current j _ k := Refs.set_of_ne _ _ (hc j k).symm

theorem of_pushPartly {p : ℤ} {prev : Sha} {commits : List Commit}
    (h : PushPartly g p prev commits f f') : SameOutside f.review.id.short f.refs f'.refs := by
  induction h with
  | stop => exact .refl _ _
  | half h => exact of_sameBut (Focus.sameBut_pushCalls h)
  | step h _ ih =>
    have hsame := Focus.sameBut_pushAt h
    rw [hsame.id_eq] at ih
    exact (of_sameBut hsame).trans ih

theorem of_rebasePartly {parent : Sha} {sel : List (Diff × Revision)}
    (h : RebasePartly g parent sel f f') : SameOutside f.review.id.short f.refs f'.refs := by
  induction h with
  | stop => exact .refl _ _
  | half => exact .refl _ _
  | step _ _ ih => exact (of_sameBut (Focus.sameBut_rebaseAt _ _ _ _ _)).trans ih

end SameOutside

theorem Agrees.sameOutside {id : ℕ} (h : Agrees refs r) (hsame : SameOutside id refs refs')
    (hid : r.id.short ≠ id) : Agrees refs' r := fun d hd =>
  (h d hd).congr rfl rfl (fun n => hsame.revision _ hid _ n) (hsame.current _ hid _)

/-! ### The invariant -/

/-- The review has a first diff with a first revision. -/
def HasFirst (r : Review) : Prop :=
  ∃ d, r.diffs.get? 1 = some d ∧ ∃ v, d.revisions.get? 1 = some v

/-- Refs and rows agree, and the digits in its refs are a review's own. -/
structure RefsInv (s : RepoState) : Prop where
  agree : RefsAgree s
  first : ∀ r ∈ s.reviews.rows, HasFirst r
  digits : ∀ r ∈ s.reviews.rows, ∀ r' ∈ s.reviews.rows, r.id.short = r'.id.short → r.id = r'.id

/-- The ref of a review's first revision exists. -/
theorem RefsInv.exists_firstRef (h : RefsInv s) (hr : r ∈ s.reviews.rows) :
    s.refs (getRevisionRef r.id.short 1 1) ≠ none := by
  obtain ⟨d, hd, v, hv⟩ := h.first r hr
  have hpos : d.position = 1 := Table.key_of_get? hd
  have hnum : v.number = 1 := Table.key_of_get? hv
  have hrev := (h.agree r hr d (Table.mem_rows_of_get? hd)).revision v (Table.mem_rows_of_get? hv)
  rw [hpos, hnum] at hrev
  rw [hrev]
  exact Option.some_ne_none _

/-- Putting in a review that agrees and whose digits are no other's. -/
theorem refsInv_put (h : RefsInv s) (hagrees : Agrees f.refs f.review) (hfirst : HasFirst f.review)
    (hsame : SameOutside f.review.id.short s.refs f.refs)
    (hdigits : ∀ r ∈ s.reviews.rows, r.id.short = f.review.id.short → r.id = f.review.id) :
    RefsInv (s.put f) := by
  have hrow : ∀ x ∈ (s.put f).reviews.rows,
      x = f.review ∨ x ∈ s.reviews.rows ∧ x.id.short ≠ f.review.id.short := by
    intro x hx
    rcases RepoState.get?_put_cases (Table.get?_key hx) with ⟨-, rfl⟩ | ⟨hne, hold⟩
    · exact .inl rfl
    · have hmem := Table.mem_rows_of_get? hold
      exact .inr ⟨hmem, fun he => hne (hdigits x hmem he)⟩
  constructor
  · intro x hx
    rw [RepoState.put_refs]
    rcases hrow x hx with rfl | ⟨hold, hne⟩
    · exact hagrees
    · exact (h.agree x hold).sameOutside hsame hne
  · exact RepoState.forall_put h.first hfirst
  · intro x hx y hy hxy
    rcases hrow x hx with rfl | ⟨hx, hxne⟩ <;> rcases hrow y hy with rfl | ⟨hy, hyne⟩
    · rfl
    · exact absurd hxy.symm hyne
    · exact absurd hxy hxne
    · exact h.digits x hx y hy hxy

/-- Putting back a review of the state. -/
theorem refsInv_put_of_get? (h : RefsInv s) (hr : s.reviews.get? r.id = some r)
    (hid : f.review.id = r.id) (hagrees : Agrees f.refs f.review) (hfirst : HasFirst f.review)
    (hsame : SameOutside r.id.short s.refs f.refs) : RefsInv (s.put f) := by
  refine refsInv_put h hagrees hfirst (hid ▸ hsame) fun x hx hdigits => ?_
  rw [hid] at hdigits ⊢
  exact h.digits x hx r (Table.mem_rows_of_get? hr) hdigits

/-! ### The first diff -/

theorem hasFirst_of_diffs (h : HasFirst f.review)
    (hd : ∀ d, f.diff? 1 = some d → ∃ d', f'.diff? 1 = some d' ∧
      ∀ v, d.revisions.get? 1 = some v → ∃ v', d'.revisions.get? 1 = some v') :
    HasFirst f'.review := by
  obtain ⟨d, hget, v, hv⟩ := h
  obtain ⟨d', hd', hrev⟩ := hd d hget
  exact ⟨d', hd', hrev v hv⟩

theorem exists_putRevision {d : Diff} {v w : Revision} {n : ℤ} (h : d.revisions.get? n = some v) :
    ∃ v', (d.putRevision w).revisions.get? n = some v' := by
  rw [Diff.get?_putRevision]
  by_cases hn : n = w.number
  · exact ⟨w, if_pos hn⟩
  · exact ⟨v, (if_neg hn).trans h⟩

theorem hasFirst_pushPartly {p : ℤ} {prev : Sha} {commits : List Commit}
    (h : HasFirst f.review) (hpart : PushPartly g p prev commits f f') : HasFirst f'.review := by
  refine hasFirst_of_diffs h fun d hd => ?_
  rcases hpart.diff? 1 with hsame | ⟨n, -, -, d', hd', hpushed⟩
  · exact ⟨d, hsame.trans hd, fun v hv => ⟨v, hv⟩⟩
  · rw [hd] at hpushed
    refine ⟨d', hd', fun v hv => ?_⟩
    cases hpushed with
    | unchanged => exact exists_putRevision hv
    | revised => exact exists_putRevision hv
    | reopened => exact exists_putRevision hv

/-- A push to a review without diffs makes its first diff. -/
theorem hasFirst_of_pushAll {prev : Sha} {commits : List Commit} (hnone : f.diff? 1 = none)
    (hne : commits ≠ []) (hall : f.pushAll g 1 prev commits = some f') : HasFirst f'.review := by
  obtain ⟨c, cs, rfl⟩ := List.exists_cons_of_ne_nil hne
  obtain ⟨f₁, h₁, hrest⟩ := Focus.pushAll_cons.mp hall
  refine hasFirst_pushPartly (f := f₁) ?_ (Focus.pushAll_partly hrest)
  rcases Focus.pushAt_cases h₁ with ⟨-, -, -, rfl⟩ | ⟨d, _, hd, -⟩ | ⟨d, _, hd, -⟩
  · exact ⟨_, Focus.diff?_withRevisionRefs (d := newDiff 1 c) rfl 1, _, Table.get?_upsert_self _ _⟩
  · cases hnone.symm.trans hd
  · cases hnone.symm.trans hd

theorem hasFirst_rebasePartly {parent : Sha} {sel : List (Diff × Revision)}
    (h : HasFirst f.review) (hsel : Selects f sel) (hpart : RebasePartly g parent sel f f') :
    HasFirst f'.review := by
  refine hasFirst_of_diffs h fun d hd => ?_
  rcases hpart.diff? 1 with hsame | ⟨q, hq, hpos, _, _, -, hrow⟩
  · exact ⟨d, hsame.trans hd, fun v hv => ⟨v, hv⟩⟩
  · have hqd := hsel.diff? q hq
    rw [hpos] at hqd
    obtain rfl := Option.some.inj (hqd.symm.trans hd)
    exact ⟨_, hrow, fun v hv => exists_putRevision hv⟩

theorem hasFirst_moved (h : HasFirst f.review) (commit : Sha) (sel : List (Diff × Revision))
    (status : Option ReviewStatus) :
    HasFirst (((f.moveTarget commit).markAll sel).setStatus status).review := by
  refine hasFirst_of_diffs h fun d hd => ?_
  rcases diff?_moved (f := f) commit sel status 1 with hk | ⟨d', hd', hk⟩
  · exact ⟨d, hk.trans hd, fun v hv => ⟨v, hv⟩⟩
  · obtain rfl := Option.some.inj (hd.symm.trans hd')
    exact ⟨_, hk, fun v hv => ⟨v, hv⟩⟩

/-! ### Steps -/

/-- A create that succeeds keeps the invariant: were the digits of its id taken
it could not have created its first ref. -/
theorem refsInv_create {draw : Uuid} {request : ProcessReviewRequest} {r' : Review}
    (h : RefsInv s) (hout : CreateOutcome g s request draw (.ok r') s') : RefsInv s' := by
  cases hout with
  | done hp hnew hall =>
    rename_i targetSha commits f
    have hpart := Focus.pushAll_partly hall
    have hnone : (s.focus (s.newReview draw request.pusherId request.targetBranch)).diff? 1 = none :=
      rfl
    have hid : f.review.id = draw := hpart.id_eq
    have hagrees : Agrees f.refs f.review := agrees_pushAll (fun d hd => absurd hd List.not_mem_nil) hall
    have hsame : SameOutside draw.short s.refs f.refs := SameOutside.of_pushPartly hpart
    have hhead : SameOutside draw.short f.refs
        (f.setRef (getHeadRef draw.short) request.newSha).refs :=
      .setRef _ (fun _ _ _ => nofun) fun _ _ => nofun
    have hfirst : HasFirst f.review := hasFirst_of_pushAll hnone hp.ne_nil hall
    refine refsInv_put h ?_ hfirst ?_ fun x hx hdigits => ?_
    · exact agrees_of_diffs hagrees rfl (fun _ _ => Focus.setRef_refs_of_ne _ nofun)
        (fun _ => Focus.setRef_refs_of_ne _ nofun) fun k d hd => ⟨d, hd, rfl⟩
    · rw [Focus.setRef_review, hid]
      exact hsame.trans hhead
    · obtain ⟨c, cs, rfl⟩ := List.exists_cons_of_ne_nil hp.ne_nil
      obtain ⟨f₁, h₁, -⟩ := Focus.pushAll_cons.mp hall
      have hfree : s.refs (getRevisionRef draw.short 1 1) = none := by
        rcases Focus.pushAt_cases h₁ with ⟨-, hfree, -⟩ | ⟨d, _, hd, -⟩ | ⟨d, _, hd, -⟩
        · exact hfree
        · cases hnone.symm.trans hd
        · cases hnone.symm.trans hd
      rw [Focus.setRef_review, hid] at hdigits
      rw [← hdigits] at hfree
      exact absurd hfree (h.exists_firstRef hx)

theorem refsInv_update {request : ProcessReviewRequest} {F : Call → RepoState → Prop} {r' : Review}
    (h : RefsInv s) (hout : UpdateOutcome g s request F (.ok r') s') : RefsInv s' := by
  cases hout with
  | done hi hall =>
    rename_i number review targetSha commits f
    have hmem := Table.mem_rows_of_get? hi.get?
    have hpart := Focus.pushAll_partly hall
    have hagrees : Agrees f.refs f.review :=
      agrees_pushAll (f := s.focus review) (h.agree _ hmem) hall
    have hsame : SameOutside review.id.short s.refs f.refs := SameOutside.of_pushPartly hpart
    have hhead : SameOutside review.id.short f.refs
        (f.setRef (getHeadRef review.id.short) request.newSha).refs :=
      .setRef _ (fun _ _ _ => nofun) fun _ _ => nofun
    have hfirst : HasFirst f.review :=
      hasFirst_pushPartly (f := s.focus review) (h.first _ hmem) hpart
    refine refsInv_put_of_get? h hi.get? hpart.id_eq ?_ hfirst (hsame.trans hhead)
    exact agrees_of_diffs hagrees rfl (fun _ _ => Focus.setRef_refs_of_ne _ nofun)
      (fun _ => Focus.setRef_refs_of_ne _ nofun) fun k d hd => ⟨d, hd, rfl⟩

/-- A landed review agrees with its refs exactly if no commit was rewritten. -/
theorem agrees_landing_iff {first : Diff × Revision} {rest : List (Diff × Revision)}
    {targetSha commit : Sha} (h : Agrees s.refs r) (hsel : Selects (s.focus r) (first :: rest))
    (hland : Landing g (s.focus r) targetSha first rest f commit) :
    Agrees f.refs f.review ↔
      (targetSha ≠ first.2.parentHash → PicksSame g targetSha (first :: rest)) := by
  rcases hland with ⟨hff, rfl, -⟩ | ⟨hne, hall⟩
  · exact iff_of_true h fun hne => absurd hff hne
  · rw [agrees_rebaseAll_iff (f := s.focus r) h hsel hall]
    exact ⟨fun hp _ => hp, fun hp => hp hne⟩

/-- **One merge.** From a state in which refs and rows agree, they agree after
a merge that succeeds exactly if it fast-forwards or picks each commit onto
where it is. -/
theorem merge_keeps_refs_iff {request : MergeReviewDiffRequest} {F : Call → RepoState → Prop}
    {r' : Review} (h : RefsInv s) (hout : MergeOutcome g s request F (.ok r') s') :
    RefsInv s' ↔ RebasesInPlace g s request := by
  cases hout with
  | done _ hi hland =>
    rename_i review first rest targetSha f commit
    have hmem := Table.mem_rows_of_get? hi.get?
    have hinput := mergeInput_eq_some_iff.mpr hi
    have hid : f.review.id = review.id := by rw [hland.review]
    have hplace : RebasesInPlace g s request ↔
        (targetSha ≠ first.2.parentHash → PicksSame g targetSha (first :: rest)) := by
      constructor
      · intro hp
        exact hp _ hinput
      · intro hp i hmem'
        obtain rfl := Option.some.inj (hinput.symm.trans hmem')
        exact hp
    rw [hplace, ← agrees_landing_iff (h.agree _ hmem) hi.selects hland,
      ← agrees_moved_iff commit (first :: rest) (closing review request.position)]
    constructor
    · intro h'
      have hagrees := h'.agree _ (Table.mem_rows_of_get? RepoState.get?_put_self)
      rwa [RepoState.put_refs] at hagrees
    · intro hagrees
      have hpart : RebasePartly g targetSha (first :: rest) (s.focus review) f := by
        rcases hland with ⟨-, rfl, -⟩ | ⟨-, hall⟩
        · exact .stop
        · exact Focus.rebaseAll_partly hall
      have hmove : SameOutside review.id.short f.refs (f.moveTarget commit).refs :=
        .setRef _ (fun _ _ _ => nofun) fun _ _ => nofun
      have hfirst : HasFirst f.review :=
        hasFirst_rebasePartly (f := s.focus review) (h.first _ hmem) hi.selects hpart
      refine refsInv_put_of_get? h hi.get? ((moved_id ..).trans hid) hagrees
        (hasFirst_moved hfirst commit (first :: rest) _) ?_
      rw [moved_refs]
      exact (SameOutside.of_rebasePartly hpart).trans hmove

/-- Publishing and editing do not touch revisions or refs. -/
theorem refsInv_editStep (h : RefsInv s) (hstep : EditStep s s') : RefsInv s' := by
  have hput : ∀ review f', s.reviews.get? review.id = some review → f'.review.id = review.id →
      f'.refs = s.refs → (∀ k, f'.diff? k = review.diffs.get? k ∨ ∃ d d', review.diffs.get? k = some d ∧
        f'.diff? k = some d' ∧ d'.revisions = d.revisions) → RefsInv (s.put f') := by
    intro review f' hr hid hrefs hd
    have hmem := Table.mem_rows_of_get? hr
    refine refsInv_put_of_get? h hr hid ?_ ?_ (hrefs ▸ .refl _ _)
    · refine agrees_of_diffs (f := s.focus review) (h.agree _ hmem) hid (fun _ _ => by rw [hrefs]; rfl)
        (fun _ => by rw [hrefs]; rfl) fun k d' hd' => ?_
      rcases hd k with hk | ⟨d, e, hk, he, hrev⟩
      · exact ⟨d', hk.symm.trans hd', rfl⟩
      · obtain rfl := Option.some.inj (hd'.symm.trans he)
        exact ⟨d, hk, hrev⟩
    · refine hasFirst_of_diffs (f := s.focus review) (h.first _ hmem) fun d hk => ?_
      rcases hd 1 with hsame | ⟨e, d', he, hd', hrev⟩
      · exact ⟨d, hsame.trans hk, fun v hv => ⟨v, hv⟩⟩
      · obtain rfl := Option.some.inj (he.symm.trans hk)
        exact ⟨d', hd', fun v hv => ⟨v, hrev ▸ hv⟩⟩
  have hset : ∀ review d d', s.reviews.get? review.id = some review → d ∈ review.diffs.rows →
      d'.position = d.position → d'.revisions = d.revisions →
      RefsInv (s.put ((s.focus review).setDiff d')) := by
    intro review d d' hr hd hpos hrev
    refine hput review _ hr rfl rfl fun k => ?_
    rw [Focus.diff?_setDiff]
    by_cases hk : k = d'.position
    · rw [if_pos hk]
      exact .inr ⟨d, d', by rw [hk, hpos]; exact Table.get?_key hd, rfl, hrev⟩
    · exact .inl (if_neg hk)
  cases hstep with
  | nothing => exact h
  | published hr => exact hput _ _ hr rfl rfl fun _ => .inl rfl
  | texts _ _ hr => exact hput _ _ hr rfl rfl fun _ => .inl rfl
  | publishedDiff hr _ hd => exact hset _ _ _ hr hd rfl rfl
  | message _ hr hd => exact hset _ _ _ hr hd rfl rfl

/-- One event that meets the guard keeps refs and rows in agreement. -/
theorem refsInv_step {e : Event} (h : RefsInv s) (hg : KeepsRefs g s e) : RefsInv (step g e s) := by
  obtain ⟨hok, hplace⟩ := hg
  cases e with
  | createReview draw plan request =>
    obtain ⟨r, hr⟩ := exists_ok hok
    have hout := step_createReview (g := g) (s := s) draw plan request
    rw [hr] at hout
    exact refsInv_create h hout
  | processReviewUpdate plan request =>
    obtain ⟨r, hr⟩ := exists_ok hok
    have hout := step_processReviewUpdate (g := g) (s := s) plan request
    rw [hr] at hout
    exact refsInv_update h hout
  | mergeReviewDiff plan request =>
    obtain ⟨r, hr⟩ := exists_ok hok
    have hout := step_mergeReviewDiff (g := g) (s := s) plan request
    rw [hr] at hout
    exact (merge_keeps_refs_iff h hout).mpr hplace
  | publishReview plan request => exact refsInv_editStep h (of_wp wp_publishReview)
  | publishReviewDiff plan request => exact refsInv_editStep h (of_wp wp_publishReviewDiff)
  | updateReview plan request => exact refsInv_editStep h (of_wp wp_updateReview)
  | updateReviewDiff plan request => exact refsInv_editStep h (of_wp wp_updateReviewDiff)
  | push branch sha =>
    have hsame : ∀ id, SameOutside id s.refs (s.updateRef (getTargetRef branch) sha).refs :=
      fun id => .setRef _ (fun _ _ _ => nofun) fun _ _ => nofun
    refine ⟨fun r hr => ?_, h.first, h.digits⟩
    exact (h.agree r hr).sameOutside (hsame (r.id.short + 1)) (by omega)

/-- **Refs and rows.** In every state reached by creates, updates and merges
that succeed, whatever is published, edited or pushed in between, refs and
rows agree if no merge has rewritten a commit. -/
theorem refs_agree (g : Git) (s : RepoState) (h : Reach Fresh (step g) (KeepsRefs g) s) :
    RefsAgree s := by
  have hinv : RefsInv s := by
    refine h.invariant (I := RefsInv) ?_ fun s e => refsInv_step
    rintro _ ⟨repository, heads, rfl⟩
    have hnone : ∀ r, r ∉ (fresh repository heads).reviews.rows := fun r => List.not_mem_nil
    exact ⟨fun r hr => absurd hr (hnone r), fun r hr => absurd hr (hnone r),
      fun r hr => absurd hr (hnone r)⟩
  exact hinv.agree

end

/-! ### A merge by fast-forward, and one by rebase

Commits 2 and 3 are pushed on the root 1, then 4 on 3; commit 5 is on 1 and 6
is 2 picked onto it. -/

/-- The commits of the two runs. -/
def rebasedGit : Git :=
  Git.ofHistory [⟨[], 0, 0⟩, ⟨[], 1, 1⟩, ⟨[1], 2, 2⟩, ⟨[2], 3, 3⟩, ⟨[3], 4, 4⟩, ⟨[1], 5, 5⟩,
    ⟨[5], 6, 2⟩] (by decide)

theorem refs_agree_forwarded : RefsAgree (play (step rebasedGit)
    [.createReview 5 [] ⟨"owner", "repo", "main", none, 3, 9⟩,
      .processReviewUpdate [] ⟨"owner", "repo", "main", some 1, 4, 9⟩,
      .publishReviewDiff [] ⟨"owner", "repo", 1, 1⟩, .publishReviewDiff [] ⟨"owner", "repo", 1, 2⟩,
      .publishReviewDiff [] ⟨"owner", "repo", 1, 3⟩, .publishReview [] ⟨"owner", "repo", 1⟩,
      .mergeReviewDiff [] ⟨"owner", "repo", 1, 2⟩]
    (fresh 7 fun branch => if branch = "main" then some 1 else none)) :=
  refs_agree _ _ (reach_play (.start ⟨_, _, rfl⟩) (by decide +kernel))

/-- A merge that picks 2 onto 5 leaves the ref of its revision on 2. -/
theorem not_refs_agree :
    ¬ ∀ (g : Git) (s : RepoState), Reach Fresh (step g) (Succeeds g) s → RefsAgree s := by
  intro h
  have hrun := h rebasedGit (play (step rebasedGit)
    [.createReview 5 [] ⟨"owner", "repo", "main", none, 2, 9⟩,
      .publishReviewDiff [] ⟨"owner", "repo", 1, 1⟩, .publishReview [] ⟨"owner", "repo", 1⟩,
      .push "main" 5, .mergeReviewDiff [] ⟨"owner", "repo", 1, 1⟩]
    (fresh 7 fun branch => if branch = "main" then some 1 else none))
    (reach_play (.start ⟨_, _, rfl⟩) (by decide +kernel))
  exact absurd hrun (by decide +kernel)

end Gitdot
