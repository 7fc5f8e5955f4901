/-
# Rebasing the open part of a stack

When the diffs of a review that are not merged are pushed again on a new base, each
with the patch it has, an update should only move their latest revisions to the new
commits (`PureRebase`). It numbers the commits from position 1, whatever is merged,
so it does just that if every open diff stands at the position that its commit
gets. The only other way is that nothing has to move: where an open diff stands
beyond the pushed positions, both it and the diff that its commit is numbered onto
hold that commit on that parent already (`pure_rebase_iff`).

Key definitions: `Review.unmerged`, `SamePatch`, `Paired`, `Diff.rebased`,
`RebasedOnto`, `PureRebase`, `Aligned`.
Key theorems: `pushedDiff_of_pushAll`, `rebased_of_aligned`, `aligned_of_rebased`,
`pure_rebase_iff`.
-/
import Gitdot.Review.Final

namespace Gitdot

open Lib Prog

/-! ### The open part and its commits -/

/-- The diffs that are not merged, by position. -/
def Review.unmerged (r : Review) : List Diff :=
  r.diffs.rows.filter fun d => decide (d.status ≠ .merged)

/-- The commit has the patch of the diff's latest revision. -/
def SamePatch (g : Git) (d : Diff) (commit : Commit) : Prop :=
  ∃ v ∈ d.latest?, g.patchId v.commitHash = g.patchId commit.sha

instance (g : Git) (d : Diff) (commit : Commit) : Decidable (SamePatch g d commit) :=
  inferInstanceAs (Decidable (∃ v ∈ d.latest?, _))

/-- The commit is already the latest revision of the diff, with that parent. -/
def Stores (d : Diff) (n : Numbered) : Prop :=
  ∃ v ∈ d.latest?, v.commitHash = n.commit.sha ∧ v.parentHash = n.previousSha

instance (d : Diff) (n : Numbered) : Decidable (Stores d n) :=
  inferInstanceAs (Decidable (∃ v ∈ d.latest?, _))

/-- The commit is pushed for the diff: both have the same place, one among the
commits, the other among the open diffs. -/
def Paired (r : Review) (targetSha : Sha) (commits : List Commit) (d : Diff) (n : Numbered) : Prop :=
  ∃ i : ℕ, r.unmerged[i]? = some d ∧ (numbered 1 targetSha commits)[i]? = some n

/-- The diff with its latest revision moved to the commit. -/
def Diff.rebased (d : Diff) (n : Numbered) : Diff :=
  match d.latest? with
  | none => d
  | some v => d.putRevision ⟨v.number, n.commit.sha, n.previousSha⟩

/-- The review with its open diffs moved to the commits. -/
structure RebasedOnto (r : Review) (targetSha : Sha) (commits : List Commit) (r' : Review) : Prop where
  columns : r' = { r with diffs := r'.diffs }
  rebased : ∀ d n, Paired r targetSha commits d n → r'.diffs.get? d.position = some (d.rebased n)
  kept : ∀ k, (∀ d n, Paired r targetSha commits d n → d.position ≠ k) →
    r'.diffs.get? k = r.diffs.get? k

/-- The review with some of its open diffs moved. -/
structure PartlyRebased (r : Review) (targetSha : Sha) (commits : List Commit) (r' : Review) :
    Prop where
  columns : r' = { r with diffs := r'.diffs }
  diffs : ∀ k, r'.diffs.get? k = r.diffs.get? k ∨
    ∃ d n, Paired r targetSha commits d n ∧ d.position = k ∧ r'.diffs.get? k = some (d.rebased n)

/-- What an update does to the reviews of which it rebases one: it moves the open
diffs, or some of them if it is cut off. -/
structure PureRebase (g : Git) (s : RepoState) (request : ProcessReviewRequest) (r : Review)
    (targetSha : Sha) (commits : List Commit) : Prop where
  through : ∃ r', (call g [] (processReviewUpdate request) s).1 = .ok r' ∧
    (call g [] (processReviewUpdate request) s).2.reviews = s.reviews.upsert r' ∧
      RebasedOnto r targetSha commits r'
  partly : ∀ plan, ∃ r',
    (call g plan (processReviewUpdate request) s).2.reviews = s.reviews.upsert r' ∧
      PartlyRebased r targetSha commits r'

/-- Every open diff stands where its commit is pushed, or it stands beyond the
pushed positions and neither it nor the diff that the commit is pushed onto has
anything to change. -/
def Aligned (r : Review) (targetSha : Sha) (commits : List Commit) : Prop :=
  ∀ p ∈ r.unmerged.zip (numbered 1 targetSha commits), p.1.position = p.2.position ∨
    (p.1.position < 1 ∨ commits.length < p.1.position) ∧ Stores p.1 p.2 ∧
      ∃ e ∈ r.diffs.get? p.2.position, Stores e p.2

instance (r : Review) (targetSha : Sha) (commits : List Commit) :
    Decidable (Aligned r targetSha commits) :=
  inferInstanceAs (Decidable (∀ p ∈ r.unmerged.zip (numbered 1 targetSha commits), _))

section

variable {g : Git} {s : RepoState} {request : ProcessReviewRequest} {r r' : Review}
  {targetSha prev : Sha} {commits : List Commit} {d e : Diff} {n m : Numbered} {p : ℤ}
  {f f' : Focus}

theorem RepoState.reviews_put : (s.put f).reviews = s.reviews.upsert f.review := by
  simp only [RepoState.put]

theorem Diff.rebased_of_latest {v : Revision} (h : d.latest? = some v) :
    d.rebased n = d.putRevision ⟨v.number, n.commit.sha, n.previousSha⟩ := by
  unfold Diff.rebased
  rw [h]

/-- A rebased diff keeps its position, its status and its message. -/
theorem Diff.rebased_columns : d.rebased n = { d with revisions := (d.rebased n).revisions } := by
  unfold Diff.rebased
  split <;> rfl

/-- It has the same revisions, but for the hashes of the latest. -/
theorem Diff.rebased_numbers :
    (d.rebased n).revisions.rows.map Revision.number = d.revisions.rows.map Revision.number := by
  unfold Diff.rebased
  split
  · rfl
  · next v hv =>
    have hget : d.revisions.get? v.number = some v := Table.get?_of_last? hv
    have hrows := Table.rows_upsert (a := (⟨v.number, n.commit.sha, n.previousSha⟩ : Revision)) hget
    simp only [Diff.putRevision, hrows, List.map_map]
    refine List.map_congr_left fun w _ => ?_
    simp only [Function.comp_apply, key_revision]
    split_ifs with hw
    · exact hw.symm
    · rfl

/-- A diff that stores the commit is not changed by moving to it. -/
theorem Stores.rebased (h : Stores d n) : d.rebased n = d := by
  obtain ⟨v, hv, hcommit, hparent⟩ := h
  have hrow : (⟨v.number, n.commit.sha, n.previousSha⟩ : Revision) = v := by
    rw [← hcommit, ← hparent]
  rw [Diff.rebased_of_latest hv, hrow]
  unfold Diff.putRevision
  rw [Table.upsert_self (a := v) (Table.get?_of_last? hv)]

theorem latest?_rebased {v : Revision} (hv : d.latest? = some v) :
    (d.rebased n).latest? = some ⟨v.number, n.commit.sha, n.previousSha⟩ := by
  rw [Diff.rebased_of_latest hv]
  exact Diff.latest?_putRevision hv le_rfl

/-! ### Pairs -/

theorem getElem?_numbered : ∀ {commits : List Commit} {p : ℤ} {prev : Sha} {i : ℕ} {n : Numbered},
    (numbered p prev commits)[i]? = some n → n.position = p + i ∧ commits[i]? = some n.commit
  | [], _, _, _, _, h => by cases h
  | c :: commits, p, prev, 0, n, h => by
    obtain rfl := Option.some.inj h
    exact ⟨(Int.add_zero p).symm, rfl⟩
  | c :: commits, p, prev, i + 1, n, h => by
    have hrest : (numbered (p + 1) c.sha commits)[i]? = some n := h
    obtain ⟨hposition, hcommit⟩ := getElem?_numbered hrest
    refine ⟨?_, hcommit⟩
    push_cast
    omega

theorem length_numbered : ∀ (commits : List Commit) (p : ℤ) (prev : Sha),
    (numbered p prev commits).length = commits.length
  | [], _, _ => rfl
  | _ :: commits, _, _ => congrArg (· + 1) (length_numbered commits _ _)

theorem mem_unmerged : d ∈ r.unmerged ↔ d ∈ r.diffs.rows ∧ d.status ≠ .merged := by
  simp [Review.unmerged]

theorem mem_zip_iff : (d, n) ∈ r.unmerged.zip (numbered 1 targetSha commits) ↔
    Paired r targetSha commits d n := by
  rw [List.mem_iff_getElem?]
  simp only [List.getElem?_zip_eq_some]
  rfl

theorem Paired.get? (h : Paired r targetSha commits d n) : r.diffs.get? d.position = some d := by
  obtain ⟨i, hd, -⟩ := h
  exact Table.get?_key (mem_unmerged.mp (List.mem_of_getElem? hd)).1

theorem Paired.mem (h : Paired r targetSha commits d n) : n ∈ numbered 1 targetSha commits := by
  obtain ⟨i, -, hn⟩ := h
  exact List.mem_of_getElem? hn

/-- A commit is paired with one diff. -/
theorem Paired.left_unique (h : Paired r targetSha commits d n)
    (h' : Paired r targetSha commits e n) : d = e := by
  obtain ⟨i, hd, hn⟩ := h
  obtain ⟨j, he, hn'⟩ := h'
  have hi := (getElem?_numbered hn).1
  have hj := (getElem?_numbered hn').1
  obtain rfl : i = j := by omega
  exact Option.some.inj (hd.symm.trans he)

theorem exists_paired (hlen : r.unmerged.length = commits.length)
    (hn : n ∈ numbered 1 targetSha commits) : ∃ d, Paired r targetSha commits d n := by
  obtain ⟨i, hi⟩ := List.mem_iff_getElem?.mp hn
  have hlt : i < (numbered 1 targetSha commits).length := (List.getElem?_eq_some_iff.mp hi).1
  rw [length_numbered, ← hlen] at hlt
  exact ⟨r.unmerged[i], i, List.getElem?_eq_getElem hlt, hi⟩

theorem samePatch_of_paired (hsame : List.Forall₂ (SamePatch g) r.unmerged commits)
    (h : Paired r targetSha commits d n) : SamePatch g d n.commit := by
  obtain ⟨i, hd, hn⟩ := h
  obtain ⟨hi, rfl⟩ := List.getElem?_eq_some_iff.mp hd
  obtain ⟨hj, hcommit⟩ := List.getElem?_eq_some_iff.mp (getElem?_numbered hn).2
  rw [← hcommit]
  exact hsame.get hi hj

/-- The positions that are pushed to. -/
theorem exists_numbered_iff : (∃ n ∈ numbered 1 targetSha commits, n.position = p) ↔
    1 ≤ p ∧ p ≤ commits.length := by
  constructor
  · rintro ⟨n, hn, rfl⟩
    obtain ⟨i, hi⟩ := List.mem_iff_getElem?.mp hn
    have hlt : i < (numbered 1 targetSha commits).length := (List.getElem?_eq_some_iff.mp hi).1
    rw [length_numbered] at hlt
    have hposition := (getElem?_numbered hi).1
    omega
  · rintro ⟨hle, hge⟩
    have hlt : (p - 1).toNat < (numbered 1 targetSha commits).length := by
      rw [length_numbered]
      omega
    have hi := List.getElem?_eq_getElem hlt
    have hposition := (getElem?_numbered hi).1
    exact ⟨_, List.mem_of_getElem? hi, by omega⟩

/-! ### What a push does at every position -/

/-- A push that gets through has pushed each commit to the diff it found at its
position. -/
theorem pushedDiff_of_pushAll : ∀ {commits : List Commit} {p : ℤ} {prev : Sha} {f f' : Focus},
    f.pushAll g p prev commits = some f' → ∀ n ∈ numbered p prev commits,
      ∃ d', f'.diff? n.position = some d' ∧ PushedDiff g n (f.diff? n.position) d'
  | [], _, _, _, _, _, _, hn => by cases hn
  | c :: commits, p, prev, f, f', h, n, hn => by
    obtain ⟨f₁, h₁, h⟩ := Focus.pushAll_cons.mp h
    rcases List.mem_cons.mp hn with rfl | hn
    · obtain ⟨d', hd', hpushed⟩ := Focus.diff?_pushAt h₁
      -- the commits after it go to later positions
      have hlater : f'.diff? p = f₁.diff? p := by
        rcases (Focus.pushAll_partly h).diff? p with hsame | ⟨m, hm, hposition, -⟩
        · exact hsame
        · have := le_of_mem_numbered hm
          omega
      exact ⟨d', hlater.trans hd', hpushed⟩
    · have hle := le_of_mem_numbered hn
      rw [← (Focus.sameBut_pushAt h₁).diff? n.position (by omega)]
      exact pushedDiff_of_pushAll h n hn

/-- It leaves the diffs at other positions alone. -/
theorem diff?_of_pushAll (h : f.pushAll g 1 targetSha commits = some f')
    (hp : p < 1 ∨ commits.length < p) : f'.diff? p = f.diff? p := by
  rcases (Focus.pushAll_partly h).diff? p with hsame | ⟨n, hn, hposition, -⟩
  · exact hsame
  · have hrange := exists_numbered_iff.mp ⟨n, hn, hposition⟩
    omega

/-- Pushing a commit with the patch that the diff has moves the diff to it. -/
theorem PushedDiff.eq_rebased {d' : Diff} (h : PushedDiff g n (some d) d')
    (hsame : SamePatch g d n.commit) : d' = d.rebased n := by
  obtain ⟨v, hv, hpatch⟩ := hsame
  cases h with
  | unchanged hw _ => exact (Diff.rebased_of_latest hw).symm
  | revised hw hne =>
    cases hv.symm.trans hw
    exact absurd hpatch hne
  | reopened hw hne =>
    cases hv.symm.trans hw
    exact absurd hpatch hne

/-- An update that is not cut off and that no call refuses. -/
theorem updated_of_pushAll {number : ℤ}
    (hi : UpdateInput g s request number r targetSha commits)
    (hall : (s.focus r).pushAll g 1 targetSha commits = some f) :
    (call g [] (processReviewUpdate request) s).1 = .ok f.review ∧
      (call g [] (processReviewUpdate request) s).2.reviews = s.reviews.upsert f.review := by
  have hout : UpdateOutcome g s request (fun _ _ => False)
      (call g [] (processReviewUpdate request) s).1 (call g [] (processReviewUpdate request) s).2 :=
    of_wp_nil wp_processReviewUpdate
  generalize call g [] (processReviewUpdate request) s = out at hout
  obtain ⟨result, s'⟩ := out
  cases hout with
  | refused e h =>
    rcases h with ⟨call, hF, -⟩ | hnone
    · exact hF.elim
    · exact absurd ⟨number, r, targetSha, commits, hi⟩ hnone
  | stopped hi' h hF => exact hF.elim
  | blocked e hi' hnone =>
    obtain ⟨-, rfl, rfl, rfl⟩ := hi.unique hi'
    rw [hall] at hnone
    cases hnone
  | head e hi' h hF => exact hF.elim
  | late e hi' h hF =>
    obtain ⟨call, hF, -⟩ := hF
    exact hF.elim
  | done hi' h =>
    obtain ⟨-, rfl, rfl, rfl⟩ := hi.unique hi'
    obtain rfl := Option.some.inj (hall.symm.trans h)
    exact ⟨rfl, RepoState.reviews_put⟩

/-- The push that an update that succeeds has made. -/
theorem pushAll_of_updated {number : ℤ}
    (hi : UpdateInput g s request number r targetSha commits)
    (hok : (call g [] (processReviewUpdate request) s).1 = .ok r') :
    ∃ f, (s.focus r).pushAll g 1 targetSha commits = some f ∧ f.review = r' := by
  have hout := step_processReviewUpdate (g := g) (s := s) [] request
  generalize call g [] (processReviewUpdate request) s = out at hout hok
  obtain ⟨result, s'⟩ := out
  obtain rfl : result = .ok r' := hok
  cases hout with
  | done hi' h =>
    obtain ⟨-, rfl, rfl, rfl⟩ := hi.unique hi'
    exact ⟨_, h, rfl⟩

/-! ### Where the open diffs are aligned -/

/-- The diff that a commit is pushed onto is the one it is paired with, or one that
stores the commit and is paired with none. -/
theorem Aligned.at_position (h : Aligned r targetSha commits)
    (hlen : r.unmerged.length = commits.length) (hn : n ∈ numbered 1 targetSha commits) :
    ∃ e, r.diffs.get? n.position = some e ∧
      (Paired r targetSha commits e n ∨
        Stores e n ∧ ∀ d m, Paired r targetSha commits d m → d.position ≠ n.position) := by
  obtain ⟨d, hd⟩ := exists_paired hlen hn
  have hrange := exists_numbered_iff.mp ⟨n, hn, rfl⟩
  rcases h (d, n) (mem_zip_iff.mpr hd) with hposition | ⟨hbeyond, -, e, he, hstores⟩
  · exact ⟨d, hposition ▸ hd.get?, .inl hd⟩
  · refine ⟨e, he, .inr ⟨hstores, fun d' m hm heq => ?_⟩⟩
    dsimp only at hbeyond
    -- such a diff would be paired with the commit, which is paired with `d`
    rcases h (d', m) (mem_zip_iff.mpr hm) with hposition | ⟨hbeyond', -⟩
    · dsimp only at hposition
      obtain rfl := numbered_unique hm.mem hn (hposition.symm.trans heq)
      obtain rfl := hm.left_unique hd
      omega
    · dsimp only at hbeyond'
      omega

theorem clearAt_of_aligned (h : Aligned r targetSha commits)
    (hsame : List.Forall₂ (SamePatch g) r.unmerged commits)
    (hn : n ∈ numbered 1 targetSha commits) : ClearAt g (s.focus r) n := by
  obtain ⟨e, he, hcase⟩ := h.at_position hsame.length_eq hn
  have hpatch : SamePatch g e n.commit := by
    rcases hcase with hpaired | ⟨⟨v, hv, hcommit, -⟩, -⟩
    · exact samePatch_of_paired hsame hpaired
    · exact ⟨v, hv, by rw [hcommit]⟩
  obtain ⟨v, hv, hpatch⟩ := hpatch
  unfold ClearAt
  simp only [RepoState.focus_diff?, he, Option.mem_def.mp hv]
  exact .inl hpatch

/-- What a push of aligned diffs makes of a position on the way. -/
theorem partly_of_aligned (h : Aligned r targetSha commits)
    (hsame : List.Forall₂ (SamePatch g) r.unmerged commits)
    (hpart : PushPartly g 1 targetSha commits (s.focus r) f) :
    PartlyRebased r targetSha commits f.review := by
  refine ⟨hpart.review, fun k => ?_⟩
  rcases hpart.diff? k with hkeeps | ⟨n, hn, rfl, d', hd', hpushed⟩
  · exact .inl hkeeps
  · obtain ⟨e, he, hpaired | ⟨hstores, -⟩⟩ := h.at_position hsame.length_eq hn
    · have hposition : e.position = n.position := Table.key_of_get? he
      rw [RepoState.focus_diff?, he] at hpushed
      rw [hpushed.eq_rebased (samePatch_of_paired hsame hpaired)] at hd'
      exact .inr ⟨e, n, hpaired, hposition, hd'⟩
    · rw [RepoState.focus_diff?, he] at hpushed
      rw [hpushed.eq_self hstores] at hd'
      exact .inl (hd'.trans he.symm)

/-- A push of aligned diffs that gets through moves them all. -/
theorem rebased_of_aligned (h : Aligned r targetSha commits)
    (hsame : List.Forall₂ (SamePatch g) r.unmerged commits)
    (hall : (s.focus r).pushAll g 1 targetSha commits = some f) :
    RebasedOnto r targetSha commits f.review := by
  refine ⟨(Focus.pushAll_partly hall).review, fun d n hd => ?_, fun k hk => ?_⟩
  · rcases h (d, n) (mem_zip_iff.mpr hd) with hposition | ⟨hbeyond, hstores, -⟩
    · obtain ⟨d', hd', hpushed⟩ := pushedDiff_of_pushAll hall n hd.mem
      rw [RepoState.focus_diff?, ← hposition, hd.get?] at hpushed
      rw [hpushed.eq_rebased (samePatch_of_paired hsame hd)] at hd'
      exact hposition ▸ hd'
    · rw [hstores.rebased]
      exact (diff?_of_pushAll hall hbeyond).trans hd.get?
  · by_cases hrange : 1 ≤ k ∧ k ≤ commits.length
    · obtain ⟨n, hn, rfl⟩ := exists_numbered_iff.mpr hrange
      obtain ⟨e, he, hpaired | ⟨hstores, -⟩⟩ := h.at_position hsame.length_eq hn
      · exact absurd (Table.key_of_get? he) (hk e n hpaired)
      · obtain ⟨d', hd', hpushed⟩ := pushedDiff_of_pushAll hall n hn
        rw [RepoState.focus_diff?, he] at hpushed
        rw [hpushed.eq_self hstores] at hd'
        exact hd'.trans he.symm
    · exact diff?_of_pushAll hall (by omega)

/-- Every run of an update of aligned diffs. -/
theorem partly_of_update {number : ℤ} (h : Aligned r targetSha commits)
    (hi : UpdateInput g s request number r targetSha commits)
    (hsame : List.Forall₂ (SamePatch g) r.unmerged commits) (plan : List Bool) :
    ∃ r', (call g plan (processReviewUpdate request) s).2.reviews = s.reviews.upsert r' ∧
      PartlyRebased r targetSha commits r' := by
  have hout := step_processReviewUpdate (g := g) (s := s) plan request
  generalize call g plan (processReviewUpdate request) s = out at hout
  obtain ⟨result, s'⟩ := out
  have hpartly : ∀ f, PushPartly g 1 targetSha commits (s.focus r) f →
      PartlyRebased r targetSha commits f.review := fun f => partly_of_aligned h hsame
  cases hout with
  | refused e hwhy =>
    exact ⟨r, (Table.upsert_self (a := r) hi.get?).symm, rfl, fun k => .inl rfl⟩
  | stopped hi' hcall =>
    obtain ⟨-, rfl, rfl, rfl⟩ := hi.unique hi'
    exact ⟨_, RepoState.reviews_put, hpartly _ hcall.partly⟩
  | blocked _ hi' _ hpart =>
    obtain ⟨-, rfl, rfl, rfl⟩ := hi.unique hi'
    exact ⟨_, RepoState.reviews_put, hpartly _ hpart⟩
  | head _ hi' hall =>
    obtain ⟨-, rfl, rfl, rfl⟩ := hi.unique hi'
    exact ⟨_, RepoState.reviews_put, hpartly _ (Focus.pushAll_partly hall)⟩
  | late _ hi' hall =>
    obtain ⟨-, rfl, rfl, rfl⟩ := hi.unique hi'
    refine ⟨_, RepoState.reviews_put, ?_⟩
    rw [Focus.setRef_review]
    exact hpartly _ (Focus.pushAll_partly hall)
  | done hi' hall =>
    obtain ⟨-, rfl, rfl, rfl⟩ := hi.unique hi'
    refine ⟨_, RepoState.reviews_put, ?_⟩
    rw [Focus.setRef_review]
    exact hpartly _ (Focus.pushAll_partly hall)

/-! ### Where a push has moved the open diffs -/

theorem eq_of_sha (hnodup : (commits.map Commit.sha).Nodup)
    (hn : n ∈ numbered 1 targetSha commits) (hm : m ∈ numbered 1 targetSha commits)
    (hsha : n.commit.sha = m.commit.sha) : n = m := by
  rw [← map_sha_numbered commits 1 targetSha] at hnodup
  exact List.inj_on_of_nodup_map hnodup hn hm hsha

/-- A push leaves the commit it has numbered onto a position as the latest revision
there. -/
theorem latest_of_pushAll (hall : f.pushAll g 1 targetSha commits = some f')
    (hn : n ∈ numbered 1 targetSha commits) (hd : f'.diff? n.position = some d) :
    Stores d n := by
  obtain ⟨d', number, hd', hlatest, -⟩ := settled_of_pushAll hall n hn
  obtain rfl := Option.some.inj (hd.symm.trans hd')
  exact ⟨_, hlatest, rfl, rfl⟩

/-- A moved diff stores the commit it was moved to and no other. -/
theorem sha_of_stores_rebased (hsame : SamePatch g d n.commit) (h : Stores (d.rebased n) m) :
    n.commit.sha = m.commit.sha := by
  obtain ⟨v, hv, -⟩ := hsame
  obtain ⟨w, hw, hcommit, -⟩ := h
  rw [latest?_rebased hv] at hw
  obtain rfl := Option.some.inj hw
  exact hcommit

theorem stores_rebased (hsame : SamePatch g d n.commit) : Stores (d.rebased n) n := by
  obtain ⟨v, hv, -⟩ := hsame
  exact ⟨_, latest?_rebased hv, rfl, rfl⟩

/-- A push that has moved the open diffs has found them aligned. -/
theorem aligned_of_rebased (hnodup : (commits.map Commit.sha).Nodup)
    (hsame : List.Forall₂ (SamePatch g) r.unmerged commits)
    (hall : (s.focus r).pushAll g 1 targetSha commits = some f)
    (h : RebasedOnto r targetSha commits f.review) : Aligned r targetSha commits := by
  rintro ⟨d, n⟩ hp
  have hd := mem_zip_iff.mp hp
  have hpatch := samePatch_of_paired hsame hd
  have hmoved : f.diff? d.position = some (d.rebased n) := h.rebased d n hd
  by_cases hposition : d.position = n.position
  · exact .inl hposition
  -- a commit that is pushed to the diff is another one than the diff was moved to
  have hbeyond : d.position < 1 ∨ commits.length < d.position := by
    by_contra hin
    have hrange : 1 ≤ d.position ∧ d.position ≤ commits.length := by omega
    obtain ⟨m, hm, hmp⟩ := exists_numbered_iff.mpr hrange
    have hstores := latest_of_pushAll hall hm (hmp ▸ hmoved)
    obtain rfl := eq_of_sha hnodup hd.mem hm (sha_of_stores_rebased hpatch hstores)
    exact hposition hmp.symm
  have hkept : d.rebased n = d :=
    Option.some.inj (hmoved.symm.trans ((diff?_of_pushAll hall hbeyond).trans hd.get?))
  refine .inr ⟨hbeyond, hkept ▸ stores_rebased hpatch, ?_⟩
  -- nor can the diff at the commit's position have been moved to another one
  have hnone : ∀ d' m, Paired r targetSha commits d' m → d'.position ≠ n.position := by
    intro d' m hm heq
    have hstores := latest_of_pushAll hall hd.mem (heq ▸ h.rebased d' m hm)
    have hsha := sha_of_stores_rebased (samePatch_of_paired hsame hm) hstores
    obtain rfl := eq_of_sha hnodup hm.mem hd.mem hsha
    obtain rfl := hm.left_unique hd
    exact hposition heq
  obtain ⟨e, number, he, hlatest, -⟩ := settled_of_pushAll hall n hd.mem
  exact ⟨e, (h.kept n.position hnone).symm.trans he, _, hlatest, rfl, rfl⟩

/-- The commits of a push are distinct. -/
theorem Pushes.nodup (h : Pushes g s request targetSha commits) :
    (commits.map Commit.sha).Nodup := by
  rw [h.commits_eq, List.map_reverse, List.nodup_reverse]
  unfold Git.revList
  rw [List.map_map]
  exact (g.revwalk_nodup _ _).map fun _ _ h => h

/-- **Pure rebases.** An update with commits that have one by one the patches of the
open diffs moves just these to the commits, if and only if they are aligned. -/
theorem pure_rebase_iff (g : Git) (s : RepoState) (request : ProcessReviewRequest) {number : ℤ}
    {r : Review} {targetSha : Sha} {commits : List Commit}
    (hi : UpdateInput g s request number r targetSha commits)
    (hsame : List.Forall₂ (SamePatch g) r.unmerged commits) :
    PureRebase g s request r targetSha commits ↔ Aligned r targetSha commits := by
  constructor
  · rintro ⟨⟨r', hok, -, hrebased⟩, -⟩
    obtain ⟨f, hall, rfl⟩ := pushAll_of_updated hi hok
    exact aligned_of_rebased hi.pushes.nodup hsame hall hrebased
  · intro h
    obtain ⟨f, hall⟩ := exists_pushAll fun n hn => clearAt_of_aligned (s := s) h hsame hn
    obtain ⟨hok, hreviews⟩ := updated_of_pushAll hi hall
    exact ⟨⟨f.review, hok, hreviews, rebased_of_aligned h hsame hall⟩,
      partly_of_update h hi hsame⟩

end

/-! ### RebasedOnto stacks

Commits 2 and 3 are pushed on 1, and 5 and 6 are the same on 4. -/

/-- The commits of the example. -/
def rebaseGit : Git :=
  Git.ofHistory [⟨[], 0, 0⟩, ⟨[], 1, 1⟩, ⟨[1], 2, 2⟩, ⟨[2], 3, 3⟩, ⟨[1], 4, 4⟩, ⟨[4], 5, 2⟩, ⟨[5], 6, 3⟩]
    (by decide)

/-- The review of 2 and 3, with 4 on `main`. -/
def movedBase : RepoState :=
  play (step rebaseGit)
    [.createReview 5 [] ⟨"owner", "repo", "main", none, 3, 9⟩, .push "main" 4]
    (fresh 7 fun branch => if branch = "main" then some 1 else none)

def rebasePush : ProcessReviewRequest := ⟨"owner", "repo", "main", some 1, 6, 9⟩

theorem pure_rebase_movedBase : ∃ r targetSha commits,
    updateInput rebaseGit movedBase rebasePush = some (1, r, targetSha, commits) ∧
      PureRebase rebaseGit movedBase rebasePush r targetSha commits := by
  have hsome : (updateInput rebaseGit movedBase rebasePush).isSome = true := by decide +kernel
  obtain ⟨⟨number, r, targetSha, commits⟩, hinput⟩ := Option.isSome_iff_exists.mp hsome
  have hfacts : ∀ i ∈ updateInput rebaseGit movedBase rebasePush, i.1 = 1 ∧
      List.Forall₂ (SamePatch rebaseGit) i.2.1.unmerged i.2.2.2 ∧
        Aligned i.2.1 i.2.2.1 i.2.2.2 := by decide +kernel
  obtain ⟨rfl, hsame, haligned⟩ := hfacts _ hinput
  exact ⟨r, targetSha, commits, hinput,
    (pure_rebase_iff _ _ _ (updateInput_eq_some_iff.mp hinput) hsame).mpr haligned⟩

/-- The open part of a review whose first diff is merged is pushed as it is: the
merged diff gets a new revision. -/
theorem not_pure_rebase :
    ¬ ∀ (g : Git) (s : RepoState) (request : ProcessReviewRequest) (number : ℤ) (r : Review)
      (targetSha : Sha) (commits : List Commit), Reach Fresh (step g) (fun _ _ => True) s →
        UpdateInput g s request number r targetSha commits →
          List.Forall₂ (SamePatch g) r.unmerged commits →
            PureRebase g s request r targetSha commits := by
  intro h
  have hrun : Reach Fresh (step partialGit) (fun _ _ => True) partialState :=
    reach_play (.start ⟨_, _, rfl⟩) guarded_true
  have hsome : (updateInput partialGit partialState
      ⟨"owner", "repo", "main", some 1, 3, 9⟩).isSome = true := by decide +kernel
  obtain ⟨⟨number, r, targetSha, commits⟩, hinput⟩ := Option.isSome_iff_exists.mp hsome
  have hfacts : ∀ i ∈ updateInput partialGit partialState
      ⟨"owner", "repo", "main", some 1, 3, 9⟩,
      List.Forall₂ (SamePatch partialGit) i.2.1.unmerged i.2.2.2 ∧
        ¬ Aligned i.2.1 i.2.2.1 i.2.2.2 := by decide +kernel
  have hi := updateInput_eq_some_iff.mp hinput
  obtain ⟨hsame, hnot⟩ := hfacts _ hinput
  obtain ⟨⟨r', hok, -, hrebased⟩, -⟩ := h _ _ _ _ _ _ _ hrun hi hsame
  obtain ⟨f, hall, rfl⟩ := pushAll_of_updated hi hok
  exact hnot (aligned_of_rebased hi.pushes.nodup hsame hall hrebased)

end Gitdot
