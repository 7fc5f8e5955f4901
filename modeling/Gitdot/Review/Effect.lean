/-
# What a push and a rebase do to a diff

Whatever part of a push is carried out, a diff is as it was or the commit
pushed to its position has changed it in one of five ways (`PushedDiff`,
`PushPartly.diff?`), and a rebase rewrites the latest revision of a selected
diff or leaves it alone (`RebasePartly.diff?`). A position that a push is
done with is `Settled`: its latest revision and both refs are the commit.
Pushing the same commit to it again changes nothing.

Key definitions: `Numbered`, `numbered`, `PushedDiff`, `Settled`, `ClearAt`.
Key theorems: `PushPartly.diff?`, `PushPartly.cut`, `settled_of_pushAll`,
`exists_pushAll`, `pushAt_of_settled`, `RebasePartly.diff?`,
`rebaseAll_landed`.
-/
import Gitdot.Review.Merge

namespace Gitdot

open Lib

/-! ### Numbering the commits -/

/-- A pushed commit with the position it gets and the SHA that gets stored as
its parent. -/
structure Numbered where
  position : ℤ
  previousSha : Sha
  commit : Commit
  deriving DecidableEq

/-- The commits of a push, oldest first, numbered from `position`. -/
def numbered : ℤ → Sha → List Commit → List Numbered
  | _, _, [] => []
  | position, previousSha, commit :: commits =>
    ⟨position, previousSha, commit⟩ :: numbered (position + 1) commit.sha commits

theorem le_of_mem_numbered : ∀ {commits : List Commit} {p : ℤ} {prev : Sha} {n : Numbered},
    n ∈ numbered p prev commits → p ≤ n.position
  | [], _, _, _, h => by cases h
  | c :: commits, p, prev, n, h => by
    rcases List.mem_cons.mp h with rfl | h
    · exact le_rfl
    · have := le_of_mem_numbered h
      omega

/-- A position gets one commit. -/
theorem numbered_unique : ∀ {commits : List Commit} {p : ℤ} {prev : Sha} {n n' : Numbered},
    n ∈ numbered p prev commits → n' ∈ numbered p prev commits → n.position = n'.position → n = n'
  | [], _, _, _, _, h, _, _ => by cases h
  | c :: commits, p, prev, n, n', h, h', hpos => by
    rcases List.mem_cons.mp h with rfl | h <;> rcases List.mem_cons.mp h' with rfl | h'
    · rfl
    · have := le_of_mem_numbered h'
      simp only at hpos
      omega
    · have := le_of_mem_numbered h
      simp only at hpos
      omega
    · exact numbered_unique h h' hpos

theorem sorted_numbered : ∀ (commits : List Commit) (p : ℤ) (prev : Sha),
    (numbered p prev commits).Pairwise fun n m => n.position < m.position
  | [], _, _ => .nil
  | _ :: commits, _, _ =>
    .cons (fun _ hn => Int.lt_of_add_one_le (le_of_mem_numbered hn)) (sorted_numbered commits _ _)

theorem map_sha_numbered : ∀ (commits : List Commit) (p : ℤ) (prev : Sha),
    (numbered p prev commits).map (fun n => n.commit.sha) = commits.map Commit.sha
  | [], _, _ => rfl
  | _ :: commits, _, _ => congrArg (_ :: ·) (map_sha_numbered commits _ _)

/-- In a stack what is numbered before a commit is an ancestor of every later
one. -/
theorem anc_of_stack {parents : Sha → List Sha} : ∀ {commits : List Commit} {p : ℤ} {prev : Sha},
    Stack parents (prev :: commits.map Commit.sha) →
      ∀ n ∈ numbered p prev commits, Anc parents prev n.previousSha ∧
        ∀ m ∈ numbered p prev commits, n.position ≤ m.position →
          Anc parents n.previousSha m.commit.sha
  | [], _, _, _, _, hn => by cases hn
  | c :: commits, p, prev, h, n, hn => by
    have hrest : Stack parents (c.sha :: commits.map Commit.sha) := (List.pairwise_cons.mp h).2
    rcases List.mem_cons.mp hn with rfl | hn
    · refine ⟨.refl _, fun m hm _ => (List.pairwise_cons.mp h).1 _ ?_⟩
      rw [← map_sha_numbered (c :: commits) p prev]
      exact List.mem_map_of_mem (f := fun n : Numbered => n.commit.sha) hm
    · obtain ⟨hanc, hlater⟩ := anc_of_stack hrest n hn
      refine ⟨((List.pairwise_cons.mp h).1 _ (.head _)).trans hanc, fun m hm hle => ?_⟩
      rcases List.mem_cons.mp hm with rfl | hm
      · have := le_of_mem_numbered hn
        simp only at hle
        omega
      · exact hlater m hm hle

/-! ### Pushing to a diff -/

/-- What pushing a commit to a position makes of the diff there, on the way
and at the end. -/
inductive PushedDiff (g : Git) (n : Numbered) : Option Diff → Diff → Prop where
  | created : PushedDiff g n none (newDiff n.position n.commit)
  | first : PushedDiff g n none
      ((newDiff n.position n.commit).putRevision ⟨1, n.commit.sha, n.previousSha⟩)
  | unchanged {d v} (hv : d.latest? = some v) (hp : g.patchId v.commitHash = g.patchId n.commit.sha) :
    PushedDiff g n (some d) (d.putRevision ⟨v.number, n.commit.sha, n.previousSha⟩)
  | revised {d v} (hv : d.latest? = some v) (hp : g.patchId v.commitHash ≠ g.patchId n.commit.sha) :
    PushedDiff g n (some d) (d.putRevision ⟨v.number + 1, n.commit.sha, n.previousSha⟩)
  | reopened {d v} (hv : d.latest? = some v) (hp : g.patchId v.commitHash ≠ g.patchId n.commit.sha) :
    PushedDiff g n (some d)
      { d.putRevision ⟨v.number + 1, n.commit.sha, n.previousSha⟩ with status := .open }

/-- The one revision a push writes is that of its commit. -/
theorem PushedDiff.revisions {g : Git} {n : Numbered} {old : Option Diff} {d' : Diff}
    (h : PushedDiff g n old d') {v : Revision} (hv : v ∈ d'.revisions.rows) :
    (v.commitHash = n.commit.sha ∧ v.parentHash = n.previousSha) ∨
      ∃ d, old = some d ∧ v ∈ d.revisions.rows := by
  cases h with
  | created => cases hv
  | first =>
    rcases Diff.mem_putRevision hv with rfl | hv
    · exact .inl ⟨rfl, rfl⟩
    · cases hv
  | unchanged =>
    rcases Diff.mem_putRevision hv with rfl | hv
    · exact .inl ⟨rfl, rfl⟩
    · exact .inr ⟨_, rfl, hv⟩
  | revised =>
    rcases Diff.mem_putRevision hv with rfl | hv
    · exact .inl ⟨rfl, rfl⟩
    · exact .inr ⟨_, rfl, hv⟩
  | reopened =>
    rcases Diff.mem_putRevision hv with rfl | hv
    · exact .inl ⟨rfl, rfl⟩
    · exact .inr ⟨_, rfl, hv⟩

section Push

variable {g : Git} {f f' : Focus} {p : ℤ} {prev : Sha} {c : Commit}

theorem Focus.diff?_withRevision {d : Diff} (hd : d.position = p) (n : ℤ) :
    (f.withRevision prev c d n).diff? p = some (d.putRevision ⟨n, c.sha, prev⟩) :=
  hd ▸ Focus.diff?_setDiff_self (f := f) (d.putRevision ⟨n, c.sha, prev⟩)

theorem Focus.diff?_withRevisionRefs {d : Diff} (hd : d.position = p) (n : ℤ) :
    (f.withRevisionRefs p prev c d n).diff? p = some (d.putRevision ⟨n, c.sha, prev⟩) :=
  diff?_withRevision hd n

theorem Focus.diff?_pushCalls {call : Call} (h : (call, f') ∈ f.pushCalls g p prev c) :
    f'.diff? p = f.diff? p ∨ ∃ d', f'.diff? p = some d' ∧ PushedDiff g ⟨p, prev, c⟩ (f.diff? p) d' := by
  unfold pushCalls at h
  split at h
  · next hnone =>
    rw [hnone]
    simp only [newCalls, List.mem_cons, Prod.mk.injEq, List.not_mem_nil, or_false] at h
    rcases h with ⟨-, rfl⟩ | ⟨-, rfl⟩ | ⟨-, rfl⟩ | ⟨-, rfl⟩
    · exact .inl hnone
    · exact .inr ⟨_, diff?_setDiff_self (newDiff p c), .created⟩
    · exact .inr ⟨_, diff?_withRevision (d := newDiff p c) rfl 1, .first⟩
    · exact .inr ⟨_, diff?_withRevision (d := newDiff p c) rfl 1, .first⟩
  · next d hd =>
    have hpos := Focus.position_of_diff? hd
    rw [hd]
    split at h
    · cases h
    next v hv =>
    split_ifs at h with hp
    · simp only [unchangedCalls, List.mem_cons, Prod.mk.injEq, List.not_mem_nil, or_false] at h
      rcases h with ⟨-, rfl⟩ | ⟨-, rfl⟩ | ⟨-, rfl⟩ | ⟨-, rfl⟩ | ⟨-, rfl⟩
      · exact .inl hd
      · exact .inl hd
      · exact .inl hd
      · exact .inr ⟨_, diff?_withRevision hpos _, .unchanged hv hp⟩
      · exact .inr ⟨_, diff?_withRevision hpos _, .unchanged hv hp⟩
    · simp only [modifiedCalls, List.mem_cons, Prod.mk.injEq, List.not_mem_nil, or_false] at h
      rcases h with ⟨-, rfl⟩ | ⟨-, rfl⟩ | ⟨-, rfl⟩ | ⟨-, rfl⟩ | ⟨-, rfl⟩ | ⟨-, rfl⟩
      · exact .inl hd
      · exact .inl hd
      · exact .inl hd
      · exact .inr ⟨_, diff?_withRevision hpos _, .revised hv hp⟩
      · exact .inr ⟨_, diff?_withRevision hpos _, .revised hv hp⟩
      · exact .inr ⟨_, diff?_withRevisionRefs hpos _, .revised hv hp⟩

theorem Focus.diff?_pushAt (h : f.pushAt g p prev c = some f') :
    ∃ d', f'.diff? p = some d' ∧ PushedDiff g ⟨p, prev, c⟩ (f.diff? p) d' := by
  rcases pushAt_cases h with ⟨hnone, -, -, rfl⟩ | ⟨d, v, hd, hv, hp, rfl⟩ | ⟨d, v, hd, hv, hp, -, rfl⟩
  · exact ⟨_, diff?_withRevisionRefs (d := newDiff p c) rfl 1, hnone ▸ .first⟩
  · exact ⟨_, diff?_withRevisionRefs (position_of_diff? hd) _, hd ▸ .unchanged hv hp⟩
  · obtain rfl := position_of_diff? hd
    exact ⟨_, diff?_setDiff_self _, hd ▸ .reopened hv hp⟩

/-- **Pushes.** However far a push gets, each diff is as it was or the commit
numbered onto its position has changed it. -/
theorem PushPartly.diff? {commits : List Commit} (h : PushPartly g p prev commits f f') (k : ℤ) :
    f'.diff? k = f.diff? k ∨
      ∃ n ∈ numbered p prev commits, n.position = k ∧
        ∃ d', f'.diff? k = some d' ∧ PushedDiff g n (f.diff? k) d' := by
  induction h with
  | stop => exact .inl rfl
  | half h =>
    rename_i p prev c commits f call f'
    by_cases hk : k = p
    · subst hk
      exact (Focus.diff?_pushCalls h).imp_right fun hd => ⟨_, .head _, rfl, hd⟩
    · exact .inl ((Focus.sameBut_pushCalls h).diff? k hk)
  | step h hpart ih =>
    rename_i p prev c commits f f₁ f'
    by_cases hk : k = p
    · subst hk
      rcases ih with ih | ⟨n, hn, hpos, -⟩
      · rw [ih]
        exact .inr ⟨_, .head _, rfl, Focus.diff?_pushAt h⟩
      · have := le_of_mem_numbered hn
        omega
    · rw [(Focus.sameBut_pushAt h).diff? k hk] at ih
      exact ih.imp_right fun ⟨n, hn, hpos, hd⟩ => ⟨n, .tail _ hn, hpos, hd⟩

/-- A push leaves the refs of branches alone. -/
theorem PushPartly.heads {commits : List Commit} (h : PushPartly g p prev commits f f')
    (branch : String) : f'.refs (getTargetRef branch) = f.refs (getTargetRef branch) := by
  induction h with
  | stop => rfl
  | half h => exact (Focus.sameBut_pushCalls h).refs _ (fun _ => nofun) nofun
  | step h _ ih => exact ih.trans ((Focus.sameBut_pushAt h).refs _ (fun _ => nofun) nofun)

/-- The latest revision of a pushed diff is that of its commit. -/
theorem PushedDiff.latest {n : Numbered} {old : Option Diff} {d' : Diff} {v : Revision}
    (h : PushedDiff g n old d') (hv : d'.latest? = some v) :
    v.commitHash = n.commit.sha ∧ v.parentHash = n.previousSha := by
  cases h with
  | created => cases hv
  | first =>
    cases hv
    exact ⟨rfl, rfl⟩
  | unchanged hw =>
    cases hv.symm.trans (Diff.latest?_putRevision hw le_rfl)
    exact ⟨rfl, rfl⟩
  | revised hw =>
    cases hv.symm.trans (Diff.latest?_putRevision hw (Int.le_add_one le_rfl))
    exact ⟨rfl, rfl⟩
  | reopened hw =>
    cases hv.symm.trans (Diff.latest?_putRevision hw (Int.le_add_one le_rfl))
    exact ⟨rfl, rfl⟩

/-! ### Positions a push is done with -/

/-- The latest revision of the diff and its refs are the numbered commit. -/
def Settled (f : Focus) (n : Numbered) : Prop :=
  ∃ d number, f.diff? n.position = some d ∧
    d.latest? = some ⟨number, n.commit.sha, n.previousSha⟩ ∧
    f.refs (f.revisionRef n.position number) = some n.commit.sha ∧
    f.refs (f.currentRef n.position) = some n.commit.sha

theorem settled_withRevisionRefs {d : Diff} (hd : d.position = p) {n : ℤ}
    (hn : ∀ v ∈ d.revisions.rows, v.number ≤ n) :
    Settled (f.withRevisionRefs p prev c d n) ⟨p, prev, c⟩ :=
  ⟨_, n, Focus.diff?_withRevisionRefs hd n, Table.last?_upsert hn,
    (Focus.setRef_refs_of_ne _ (Focus.revisionRef_ne_currentRef _ _ _)).trans
      (Focus.setRef_refs_self _ _), Focus.setRef_refs_self _ _⟩

theorem settled_of_pushAt (h : f.pushAt g p prev c = some f') : Settled f' ⟨p, prev, c⟩ := by
  rcases Focus.pushAt_cases h with
    ⟨-, -, -, rfl⟩ | ⟨d, v, hd, hv, -, rfl⟩ | ⟨d, v, hd, hv, -, -, rfl⟩
  · exact settled_withRevisionRefs (d := newDiff p c) rfl fun v hv => by cases hv
  · exact settled_withRevisionRefs (Focus.position_of_diff? hd) (Table.last?_eq_some_iff.mp hv).2
  · have hle : ∀ w ∈ d.revisions.rows, w.number ≤ v.number + 1 := fun w hw =>
      ((Table.last?_eq_some_iff.mp hv).2 w hw).trans (Int.le_add_one le_rfl)
    have hset : Settled (f.withRevisionRefs p prev c d (v.number + 1)) ⟨p, prev, c⟩ :=
      settled_withRevisionRefs (Focus.position_of_diff? hd) hle
    obtain ⟨d', number, hd', hlatest, hrev, hcur⟩ := hset
    rw [Focus.diff?_withRevisionRefs (Focus.position_of_diff? hd)] at hd'
    cases hd'
    obtain rfl := Focus.position_of_diff? hd
    exact ⟨_, number, Focus.diff?_setDiff_self _, hlatest, hrev, hcur⟩

theorem Settled.sameBut {n : Numbered} (h : Settled f n) {q : ℤ} (hsame : f.SameBut q f')
    (hq : q ≠ n.position) : Settled f' n := by
  obtain ⟨d, number, hd, hlatest, hrev, hcur⟩ := h
  refine ⟨d, number, (hsame.diff? _ hq.symm).trans hd, hlatest, ?_, ?_⟩
  · rw [hsame.revisionRef_eq, ← hrev]
    exact hsame.refs_getRevisionRef (.inr hq.symm) number
  · rw [hsame.currentRef_eq, ← hcur]
    exact hsame.refs_getCurrentRef (.inr hq.symm)

/-- What is left of a push leaves the positions before it as they are. -/
theorem Settled.pushPartly {n : Numbered} {commits : List Commit} (h : Settled f n)
    (hpart : PushPartly g p prev commits f f') (hp : n.position < p) : Settled f' n := by
  induction hpart with
  | stop => exact h
  | half hc => exact h.sameBut (Focus.sameBut_pushCalls hc) (by omega)
  | step hc _ ih => exact ih (h.sameBut (Focus.sameBut_pushAt hc) (by omega)) (by omega)

/-- **Pushed.** A push that gets through settles each of its positions. -/
theorem settled_of_pushAll : ∀ {commits : List Commit} {p : ℤ} {prev : Sha} {f f' : Focus},
    f.pushAll g p prev commits = some f' → ∀ n ∈ numbered p prev commits, Settled f' n
  | [], _, _, _, _, _, _, hn => by cases hn
  | c :: commits, p, prev, f, f', h, n, hn => by
    obtain ⟨f₁, h₁, h⟩ := Focus.pushAll_cons.mp h
    rcases List.mem_cons.mp hn with rfl | hn
    · exact (settled_of_pushAt h₁).pushPartly (Focus.pushAll_partly h) (Int.lt_succ p)
    · exact settled_of_pushAll h n hn

/-- **How far a push got.** The positions before some `m` are settled and those
after it are as they were. -/
theorem PushPartly.cut {commits : List Commit} (h : PushPartly g p prev commits f f') :
    ∃ m, p ≤ m ∧
      (∀ k, p ≤ k → k < m → ∃ n ∈ numbered p prev commits, n.position = k ∧ Settled f' n) ∧
      ∀ k, k < p ∨ m < k → f'.diff? k = f.diff? k := by
  induction h with
  | stop => exact ⟨_, le_rfl, fun k hp hm => absurd hm (not_lt.mpr hp), fun _ _ => rfl⟩
  | half h =>
    exact ⟨_, le_rfl, fun k hp hm => absurd hm (not_lt.mpr hp),
      fun k hk => (Focus.sameBut_pushCalls h).diff? k (by omega)⟩
  | step h hpart ih =>
    rename_i p prev c commits f f₁ f'
    obtain ⟨m, hm, hdone, hrest⟩ := ih
    refine ⟨m, by omega, fun k hp hkm => ?_, fun k hk => ?_⟩
    · by_cases hk : k = p
      · exact ⟨_, .head _, hk.symm, (settled_of_pushAt h).pushPartly hpart (Int.lt_succ p)⟩
      · obtain ⟨n, hn, hpos, hset⟩ := hdone k (by omega) hkm
        exact ⟨n, .tail _ hn, hpos, hset⟩
    · rw [hrest k (by omega), (Focus.sameBut_pushAt h).diff? k (by omega)]

/-- Nothing at the position keeps the commit from being pushed to it: the diff
there has a revision, and the refs to be created do not exist. -/
def ClearAt (g : Git) (f : Focus) (n : Numbered) : Prop :=
  match f.diff? n.position with
  | none => f.refs (f.revisionRef n.position 1) = none ∧ f.refs (f.currentRef n.position) = none
  | some d =>
    match d.latest? with
    | none => False
    | some v => g.patchId v.commitHash = g.patchId n.commit.sha ∨
      f.refs (f.revisionRef n.position (v.number + 1)) = none

instance (g : Git) (f : Focus) (n : Numbered) : Decidable (ClearAt g f n) :=
  match hd : f.diff? n.position with
  | none => decidable_of_iff (f.refs (f.revisionRef n.position 1) = none ∧
      f.refs (f.currentRef n.position) = none) (by simp only [ClearAt, hd])
  | some d =>
    match hv : d.latest? with
    | none => .isFalse (by simp only [ClearAt, hd, hv, not_false_eq_true])
    | some v => decidable_of_iff (g.patchId v.commitHash = g.patchId n.commit.sha ∨
        f.refs (f.revisionRef n.position (v.number + 1)) = none) (by simp only [ClearAt, hd, hv])

theorem exists_pushAt (h : ClearAt g f ⟨p, prev, c⟩) : ∃ f', f.pushAt g p prev c = some f' := by
  unfold ClearAt at h
  unfold Focus.pushAt
  cases hd : f.diff? p with
  | none =>
    simp only [hd] at h
    simp [h]
  | some d =>
    cases hv : d.latest? with
    | none => simp only [hd, hv] at h
    | some v =>
      simp only [hd, hv] at h ⊢
      split_ifs with h1 h2
      · exact ⟨_, rfl⟩
      · exact ⟨_, rfl⟩
      · exact absurd (h.resolve_left h1) h2

theorem ClearAt.sameBut {n : Numbered} (h : ClearAt g f n) {q : ℤ} (hsame : f.SameBut q f')
    (hq : q ≠ n.position) : ClearAt g f' n := by
  have hdiff : f'.diff? n.position = f.diff? n.position := hsame.diff? _ hq.symm
  have hrev : ∀ m, f'.refs (f'.revisionRef n.position m) = f.refs (f.revisionRef n.position m) :=
    fun m => by
      rw [hsame.revisionRef_eq]
      exact hsame.refs_getRevisionRef (.inr hq.symm) m
  have hcur : f'.refs (f'.currentRef n.position) = f.refs (f.currentRef n.position) := by
    rw [hsame.currentRef_eq]
    exact hsame.refs_getCurrentRef (.inr hq.symm)
  unfold ClearAt at h ⊢
  simpa only [hdiff, hrev, hcur] using h

/-- A push all of whose positions are clear gets through. -/
theorem exists_pushAll : ∀ {commits : List Commit} {p : ℤ} {prev : Sha} {f : Focus},
    (∀ n ∈ numbered p prev commits, ClearAt g f n) →
      ∃ f', f.pushAll g p prev commits = some f'
  | [], _, _, f, _ => ⟨f, rfl⟩
  | c :: commits, p, prev, f, h => by
    obtain ⟨f₁, h₁⟩ := exists_pushAt (h _ (.head _))
    have hrest : ∀ n ∈ numbered (p + 1) c.sha commits, ClearAt g f₁ n := fun n hn => by
      have := le_of_mem_numbered hn
      exact (h n (.tail _ hn)).sameBut (Focus.sameBut_pushAt h₁) (by omega)
    obtain ⟨f', h'⟩ := exists_pushAll hrest
    exact ⟨f', Focus.pushAll_cons.mpr ⟨f₁, h₁, h'⟩⟩

/-- Pushing the commit of the latest revision again only moves the refs. -/
theorem pushAt_of_latest {d : Diff} {n : ℤ} (hd : f.diff? p = some d)
    (hlatest : d.latest? = some ⟨n, c.sha, prev⟩) :
    f.pushAt g p prev c =
      some ((f.setRef (f.revisionRef p n) c.sha).setRef (f.currentRef p) c.sha) := by
  have hrow : d.putRevision ⟨n, c.sha, prev⟩ = d := by
    unfold Diff.putRevision
    rw [Table.upsert_self (a := (⟨n, c.sha, prev⟩ : Revision)) (Table.get?_of_last? hlatest)]
  have hwith : f.withRevision prev c d n = f := by
    unfold Focus.withRevision
    rw [hrow]
    exact Focus.setDiff_self (Focus.position_of_diff? hd ▸ hd)
  unfold Focus.pushAt
  simp only [hd, hlatest, if_true, Focus.afterUnchanged, Focus.withRevisionRefs, hwith]

/-- Pushing the commit a position is settled on changes nothing. -/
theorem pushAt_of_settled (h : Settled f ⟨p, prev, c⟩) : f.pushAt g p prev c = some f := by
  obtain ⟨d, number, hd, hlatest, hrev, hcur⟩ := h
  rw [pushAt_of_latest hd hlatest, Focus.setRef_self hrev, Focus.setRef_self hcur]

end Push

/-! ### Rebasing a diff -/

section Rebase

variable {g : Git}

/-- **Rebases.** However far a rebase gets, each diff is as it was or it is a
selected one whose latest revision has been cherry-picked. -/
theorem RebasePartly.diff? {newParentSha : Sha} {sel : List (Diff × Revision)} {f f' : Focus}
    (h : RebasePartly g newParentSha sel f f') (k : ℤ) :
    f'.diff? k = f.diff? k ∨
      ∃ q ∈ sel, q.1.position = k ∧ ∃ parent new, g.cherryPickCommit q.2.commitHash parent = .ok new ∧
        f'.diff? k = some (q.1.putRevision ⟨q.2.number, new, parent⟩) := by
  induction h with
  | stop => exact .inl rfl
  | half hpick =>
    rename_i parent new d v rest f
    by_cases hk : k = d.position
    · subst hk
      exact .inr ⟨(d, v), .head _, rfl, parent, new, hpick,
        Focus.diff?_setDiff_self (d.putRevision ⟨v.number, new, parent⟩)⟩
    · exact .inl (Focus.diff?_setDiff_of_ne (d.putRevision ⟨v.number, new, parent⟩) hk)
  | step hpick hpart ih =>
    rename_i parent new d v rest f f'
    rcases ih with ih | ⟨q, hq, hk, hpicked⟩
    · rw [ih]
      by_cases hk : k = d.position
      · subst hk
        exact .inr ⟨(d, v), .head _, rfl, parent, new, hpick,
          Focus.diff?_setDiff_self (d.putRevision ⟨v.number, new, parent⟩)⟩
      · exact .inl (Focus.diff?_setDiff_of_ne (d.putRevision ⟨v.number, new, parent⟩) hk)
    · exact .inr ⟨q, .tail _ hq, hk, hpicked⟩

/-- A rebase leaves the refs of branches alone. -/
theorem RebasePartly.heads {newParentSha : Sha} {sel : List (Diff × Revision)} {f f' : Focus}
    (h : RebasePartly g newParentSha sel f f') (branch : String) :
    f'.refs (getTargetRef branch) = f.refs (getTargetRef branch) := by
  induction h with
  | stop => rfl
  | half => rfl
  | step _ _ ih => exact ih.trans (Focus.setRef_refs_of_ne _ nofun)

/-- A rebase does not touch diffs it did not select. -/
theorem RebasePartly.diff?_of_not_selected {newParentSha : Sha} {sel : List (Diff × Revision)}
    {f f' : Focus} (h : RebasePartly g newParentSha sel f f') {k : ℤ}
    (hk : k ∉ sel.map fun q => q.1.position) : f'.diff? k = f.diff? k := by
  rcases h.diff? k with h | ⟨q, hq, hpos, -⟩
  · exact h
  · exact absurd (List.mem_map.mpr ⟨q, hq, hpos⟩) hk

/-- **Landed.** A rebase that gets through puts the selected diffs on a chain
of commits that starts at the new parent and ends at the commit it returns. -/
theorem rebaseAll_landed : ∀ {sel : List (Diff × Revision)} {newParentSha sha : Sha} {f f' : Focus},
    Selects f sel → f.rebaseAll g newParentSha sel = some (f', sha) →
      g.Anc newParentSha sha ∧
      ∀ q ∈ sel, ∃ parent new, g.cherryPickCommit q.2.commitHash parent = .ok new ∧
        f'.diff? q.1.position = some (q.1.putRevision ⟨q.2.number, new, parent⟩) ∧ g.Anc new sha
  | [], _, _, _, _, _, h => by
    cases h
    exact ⟨.refl _, fun q hq => by cases hq⟩
  | (d, v) :: rest, parent, sha, f, f', hsel, h => by
    unfold Focus.rebaseAll at h
    split at h
    · next new hpick =>
      have hsame := f.sameBut_rebaseAt d v parent new
      obtain ⟨hanc, hrest⟩ := rebaseAll_landed (hsel.tail hsame) h
      refine ⟨(Git.anc_of_cherryPick hpick).trans hanc, fun q hq => ?_⟩
      rcases List.mem_cons.mp hq with rfl | hq
      · refine ⟨parent, new, hpick, ?_, hanc⟩
        rw [(Focus.rebaseAll_partly h).diff?_of_not_selected (List.nodup_cons.mp hsel.nodup).1]
        exact Focus.diff?_setDiff_self (d.putRevision ⟨v.number, new, parent⟩)
      · exact hrest q hq
    · cases h

end Rebase
end Gitdot
