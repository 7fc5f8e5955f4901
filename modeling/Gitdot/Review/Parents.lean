/-
# The stored parents and the git graph

No method reads a commit's parent: what is stored as `parent_hash` is the tip
of the target branch for the first commit of a push and the commit before it
in the list for the others. It is the first parent of every stored commit in
the runs whose pushes are first-parent chains that start at the tip
(`revisions_describe_graph`), and there the diffs of a review that was just
created, or updated by a push that reaches all of them, are one chain.

Key definitions: `RowsDescribe`, `LatestChain`, `PushesChain`.
Key theorems: `rowsDescribe_step`, `revisions_describe_graph`.
-/
import Gitdot.Review.Run

namespace Gitdot

open Lib Prog

/-- The stored parent is the first parent of the stored commit. -/
def Revision.Describes (g : Git) (v : Revision) : Prop :=
  (g.parents v.commitHash).head? = some v.parentHash

/-- Every revision of the review names its commit's first parent. -/
def Review.Describes (g : Git) (r : Review) : Prop :=
  ∀ d ∈ r.diffs.rows, ∀ v ∈ d.revisions.rows, v.Describes g

/-- Every revision row names its commit's first parent. -/
def RowsDescribe (g : Git) (s : RepoState) : Prop := ∀ r ∈ s.reviews.rows, r.Describes g

instance (g : Git) (s : RepoState) : Decidable (RowsDescribe g s) :=
  inferInstanceAs (Decidable (∀ r ∈ s.reviews.rows, ∀ d ∈ r.diffs.rows, ∀ v ∈ d.revisions.rows,
    (g.parents v.commitHash).head? = some v.parentHash))

/-- The commit of the latest revision of each diff of a review. -/
def latestCommits (r : Review) : List (Option Sha) :=
  r.diffs.rows.map fun d => d.latest?.map Revision.commitHash

/-- The latest revisions of the diffs of the review form a parent chain. -/
def LatestChain (g : Git) (r : Review) : Prop :=
  ∃ shas : List Sha, latestCommits r = shas.map some ∧ ParentChain g.parents shas

/-- What is pushed is a chain of first parents that starts at the tip of the
target branch. -/
def PushesChain (g : Git) (s : RepoState) (request : ProcessReviewRequest) : Prop :=
  ∀ targetSha commits, Pushes g s request targetSha commits →
    ParentChain g.parents (targetSha :: commits.map Commit.sha)

/-- The guard of runs all of whose pushes are such chains. -/
def ChainPushes (g : Git) (s : RepoState) : Event → Prop
  | .createReview _ _ request => PushesChain g s request
  | .processReviewUpdate _ request => PushesChain g s request
  | _ => True

/-- An update reaches every diff of its review. -/
def ReachesAll (g : Git) (s : RepoState) (request : ProcessReviewRequest) : Prop :=
  ∀ number review targetSha commits, UpdateInput g s request number review targetSha commits →
    ∀ d ∈ review.diffs.rows, ∃ n ∈ numbered 1 targetSha commits, n.position = d.position

section

variable {g : Git} {s : RepoState} {f f' : Focus}

theorem pushesChain_iff {request : ProcessReviewRequest} :
    PushesChain g s request ↔ ∀ p ∈ pushed g s request,
      ParentChain g.parents (p.1 :: p.2.map Commit.sha) :=
  ⟨fun h _ hp => h _ _ (pushed_eq_some_iff.mp hp),
    fun h targetSha commits hp => h (targetSha, commits) (pushed_eq_some_iff.mpr hp)⟩

instance (request : ProcessReviewRequest) : Decidable (PushesChain g s request) :=
  decidable_of_iff' _ pushesChain_iff

instance : (e : Event) → Decidable (ChainPushes g s e)
  | .createReview _ _ request => inferInstanceAs (Decidable (PushesChain g s request))
  | .processReviewUpdate _ request => inferInstanceAs (Decidable (PushesChain g s request))
  | .publishReview .. | .publishReviewDiff .. | .updateReview .. | .updateReviewDiff ..
  | .mergeReviewDiff .. | .push .. => .isTrue trivial

theorem reachesAll_iff {request : ProcessReviewRequest} :
    ReachesAll g s request ↔ ∀ i ∈ updateInput g s request, ∀ d ∈ i.2.1.diffs.rows,
      ∃ n ∈ numbered 1 i.2.2.1 i.2.2.2, n.position = d.position :=
  ⟨fun h _ hi => h _ _ _ _ (updateInput_eq_some_iff.mp hi),
    fun h number review targetSha commits hi =>
      h (number, review, targetSha, commits) (updateInput_eq_some_iff.mpr hi)⟩

instance (request : ProcessReviewRequest) : Decidable (ReachesAll g s request) :=
  decidable_of_iff' _ reachesAll_iff

/-! ### The rows -/

/-- In a chain every commit is numbered with its first parent. -/
theorem firstParent_of_chain : ∀ {commits : List Commit} {p : ℤ} {prev : Sha},
    ParentChain g.parents (prev :: commits.map Commit.sha) →
      ∀ n ∈ numbered p prev commits, (g.parents n.commit.sha).head? = some n.previousSha
  | [], _, _, _, _, hn => by cases hn
  | c :: commits, p, prev, h, n, hn => by
    obtain ⟨hc, hrest⟩ := List.isChain_cons_cons.mp h
    rcases List.mem_cons.mp hn with rfl | hn
    · exact hc
    · exact firstParent_of_chain hrest n hn

theorem describes_of_diffs (h : f.review.Describes g)
    (hd : ∀ k d', f'.diff? k = some d' → ∀ v ∈ d'.revisions.rows,
      v.Describes g ∨ ∃ d, f.diff? k = some d ∧ v ∈ d.revisions.rows) : f'.review.Describes g := by
  intro d' hd' v hv
  rcases hd d'.position d' (Focus.diff?_of_mem hd') v hv with hv | ⟨d, hget, hv⟩
  · exact hv
  · exact h d (Table.mem_rows_of_get? hget) v hv

/-- However far the push of a chain gets, the rows describe the graph. -/
theorem describes_pushPartly {p : ℤ} {prev : Sha} {commits : List Commit}
    (hchain : ParentChain g.parents (prev :: commits.map Commit.sha))
    (h : f.review.Describes g) (hpart : PushPartly g p prev commits f f') :
    f'.review.Describes g := by
  refine describes_of_diffs h fun k d' hd' v hv => ?_
  rcases hpart.diff? k with hsame | ⟨n, hn, -, d, hd, hpushed⟩
  · exact .inr ⟨d', hsame ▸ hd', hv⟩
  · obtain rfl : d' = d := Option.some.inj (hd'.symm.trans hd)
    rcases hpushed.revisions hv with ⟨hcommit, hparent⟩ | hold
    · refine .inl ?_
      rw [Revision.Describes, hcommit, hparent]
      exact firstParent_of_chain hchain n hn
    · exact .inr hold

theorem describes_rebasePartly {p : Sha} {sel : List (Diff × Revision)}
    (h : f.review.Describes g) (hsel : Selects f sel) (hpart : RebasePartly g p sel f f') :
    f'.review.Describes g := by
  refine describes_of_diffs h fun k d' hd' v hv => ?_
  rcases hpart.diff? k with hsame | ⟨q, hq, hk, parent, new, hpick, hd⟩
  · exact .inr ⟨d', hsame ▸ hd', hv⟩
  · obtain rfl : d' = _ := Option.some.inj (hd'.symm.trans hd)
    rcases Diff.mem_putRevision hv with rfl | hv
    · refine .inl ?_
      rw [Revision.Describes, Git.parents_of_cherryPick hpick]
      rfl
    · exact .inr ⟨q.1, hk ▸ hsel.diff? q hq, hv⟩

theorem describes_markAll (h : f.review.Describes g) (sel : List (Diff × Revision)) :
    (f.markAll sel).review.Describes g := by
  refine describes_of_diffs h fun k d' hd' v hv => .inr ?_
  rw [Focus.diff?_markAll] at hd'
  split_ifs at hd'
  · obtain ⟨d, hd, rfl⟩ := Option.map_eq_some_iff.mp hd'
    exact ⟨d, hd, hv⟩
  · exact ⟨d', hd', hv⟩

/-- Rewriting columns of a diff other than its revisions. -/
theorem describes_setDiff (h : f.review.Describes g) {d d' : Diff} (hd : f.diff? d.position = some d)
    (hpos : d'.position = d.position) (hrev : d'.revisions = d.revisions) :
    (f.setDiff d').review.Describes g := by
  refine describes_of_diffs h fun k e he v hv => .inr ?_
  rw [Focus.diff?_setDiff, hpos] at he
  split_ifs at he with hk
  · obtain rfl := Option.some.inj he
    exact ⟨d, hk ▸ hd, hrev ▸ hv⟩
  · exact ⟨e, he, hv⟩

theorem rowsDescribe_pushStep {request : ProcessReviewRequest} {draw : Option Uuid}
    {s' : RepoState}
    (h : RowsDescribe g s) (hchain : PushesChain g s request) (hstep : PushStep g s request draw s') :
    RowsDescribe g s' := by
  have hbase : ∀ {review targetSha commits}, PushBase g s request draw review targetSha commits →
      (s.focus review).review.Describes g ∧
        ParentChain g.parents (targetSha :: commits.map Commit.sha) := by
    intro review targetSha commits hb
    cases hb with
    | update hi => exact ⟨h _ (Table.mem_rows_of_get? hi.get?), hchain _ _ hi.pushes⟩
    | create hp => exact ⟨(fun d hd => nomatch hd), hchain _ _ hp⟩
  cases hstep with
  | nothing => exact h
  | partly hb hpart =>
    exact RepoState.forall_put h (describes_pushPartly (hbase hb).2 (hbase hb).1 hpart)
  | through hb hall =>
    have hf := describes_pushPartly (hbase hb).2 (hbase hb).1 (Focus.pushAll_partly hall)
    exact RepoState.forall_put h hf

theorem describes_landing {request : MergeReviewDiffRequest} {review : Review}
    {first : Diff × Revision} {rest : List (Diff × Revision)} {targetSha commit : Sha}
    (h : review.Describes g) (hi : MergeInput s request review first rest targetSha)
    (hland : Landing g (s.focus review) targetSha first rest f commit) : f.review.Describes g := by
  rcases hland with ⟨-, rfl, -⟩ | ⟨-, hall⟩
  · exact h
  · exact describes_rebasePartly h hi.selects (Focus.rebaseAll_partly hall)

theorem rowsDescribe_mergeStep {request : MergeReviewDiffRequest} {F : Call → RepoState → Prop}
    {s' : RepoState} (h : RowsDescribe g s) (hstep : MergeStep g s request F s') :
    RowsDescribe g s' := by
  cases hstep with
  | nothing => exact h
  | rebasing hi _ hpart =>
    exact RepoState.forall_put h (describes_rebasePartly
      (h _ (Table.mem_rows_of_get? hi.get?)) hi.selects hpart)
  | moved status hi hland =>
    have hf := describes_landing (h _ (Table.mem_rows_of_get? hi.get?)) hi hland
    exact RepoState.forall_put h (describes_markAll (f := Focus.moveTarget _ _) hf _)

theorem rowsDescribe_editStep {s' : RepoState} (h : RowsDescribe g s) (hstep : EditStep s s') :
    RowsDescribe g s' := by
  cases hstep with
  | nothing => exact h
  | published hr =>
    have hreview := h _ (Table.mem_rows_of_get? hr)
    exact RepoState.forall_put h hreview
  | publishedDiff hr _ hd =>
    exact RepoState.forall_put h (describes_setDiff (f := s.focus _)
      (h _ (Table.mem_rows_of_get? hr)) (Table.get?_key hd) rfl rfl)
  | texts _ _ hr =>
    have hreview := h _ (Table.mem_rows_of_get? hr)
    exact RepoState.forall_put h hreview
  | message _ hr hd =>
    exact RepoState.forall_put h (describes_setDiff (f := s.focus _)
      (h _ (Table.mem_rows_of_get? hr)) (Table.get?_key hd) rfl rfl)

/-- One event whose pushes are chains keeps the rows true to the graph. -/
theorem rowsDescribe_step {e : Event} (h : RowsDescribe g s) (hg : ChainPushes g s e) :
    RowsDescribe g (step g e s) :=
  step_induct (fun _ _ _ he _ => by subst he; exact rowsDescribe_pushStep h hg)
    (fun _ _ he _ => by subst he; exact rowsDescribe_pushStep h hg)
    (fun _ _ _ _ => rowsDescribe_mergeStep h) (fun _ => rowsDescribe_editStep h)
    fun _ _ _ => h

/-! ### The latest revisions -/

/-- When a push gets through and reaches every diff, the latest revisions are
its commits, in order. -/
theorem latestCommits_of_pushAll {targetSha : Sha} {commits : List Commit}
    (hall : f.pushAll g 1 targetSha commits = some f')
    (hreach : ∀ d ∈ f.review.diffs.rows,
      ∃ n ∈ numbered 1 targetSha commits, n.position = d.position) :
    latestCommits f'.review = (commits.map Commit.sha).map some := by
  have hsettled := settled_of_pushAll hall
  have hmem : ∀ k, k ∈ f'.review.diffs.rows.map Diff.position ↔
      k ∈ (numbered 1 targetSha commits).map Numbered.position := fun k => by
    simp only [List.mem_map]
    constructor
    · rintro ⟨d, hd, rfl⟩
      rcases (Focus.pushAll_partly hall).diff? d.position with hsame | ⟨n, hn, hpos, -⟩
      · rw [Focus.diff?_of_mem hd] at hsame
        obtain ⟨n, hn, hpos⟩ := hreach d (Table.mem_rows_of_get? hsame.symm)
        exact ⟨n, hn, hpos⟩
      · exact ⟨n, hn, hpos⟩
    · rintro ⟨n, hn, rfl⟩
      obtain ⟨d, _, hd, -⟩ := hsettled n hn
      exact ⟨d, Table.mem_rows_of_get? hd, Focus.position_of_diff? hd⟩
  have hrows : (f'.review.diffs.rows.map Diff.position).Pairwise (· < ·) :=
    List.pairwise_map.mpr f'.review.diffs.sorted
  have hnums : ((numbered 1 targetSha commits).map Numbered.position).Pairwise (· < ·) :=
    List.pairwise_map.mpr (sorted_numbered commits 1 targetSha)
  have hpositions : f'.review.diffs.rows.map Diff.position =
      (numbered 1 targetSha commits).map Numbered.position :=
    ((List.perm_ext_iff_of_nodup (hrows.imp fun h => h.ne) (hnums.imp fun h => h.ne)).mpr
      hmem).eq_of_pairwise (fun _ _ _ _ hab hba => absurd (hab.trans hba) (lt_irrefl _)) hrows hnums
  -- what stands at a position, read off through `diff?`
  let latestAt : ℤ → Option Sha := fun k =>
    (f'.diff? k).bind fun d => d.latest?.map Revision.commitHash
  calc latestCommits f'.review
      = (f'.review.diffs.rows.map Diff.position).map latestAt := by
        rw [latestCommits, List.map_map]
        refine List.map_congr_left fun d hd => ?_
        simp only [Function.comp_apply, latestAt, Focus.diff?_of_mem hd, Option.bind_some]
    _ = (numbered 1 targetSha commits).map fun n => some n.commit.sha := by
        rw [hpositions, List.map_map]
        refine List.map_congr_left fun n hn => ?_
        obtain ⟨d, _, hd, hlatest, -⟩ := hsettled n hn
        simp only [Function.comp_apply, latestAt, hd, Option.bind_some, hlatest, Option.map_some]
    _ = (commits.map Commit.sha).map some := by
        rw [← map_sha_numbered commits 1 targetSha, List.map_map]
        rfl

theorem latestChain_of_pushAll {targetSha : Sha} {commits : List Commit}
    (hall : f.pushAll g 1 targetSha commits = some f')
    (hreach : ∀ d ∈ f.review.diffs.rows,
      ∃ n ∈ numbered 1 targetSha commits, n.position = d.position)
    (hchain : ParentChain g.parents (targetSha :: commits.map Commit.sha)) :
    LatestChain g f'.review :=
  ⟨commits.map Commit.sha, latestCommits_of_pushAll hall hreach, hchain.tail⟩

/-- The review an event made or updated. -/
theorem get?_put_setRef {name : RefName} {sha : Sha} :
    (s.put (f.setRef name sha)).reviews.get? f.review.id = some f.review :=
  RepoState.get?_put_self (f := f.setRef name sha)

/-- **Stored parents.** In the runs whose pushes are first-parent chains that
start at the tip of their target branch, every stored parent is the first
parent of its commit; the diffs of a review that such a push has created are a
chain, and those of one it has updated are if it reached them all. -/
theorem revisions_describe_graph (g : Git) (s : RepoState)
    (h : Reach Fresh (step g) (ChainPushes g) s) :
    RowsDescribe g s ∧
    (∀ draw plan request r, PushesChain g s request →
      (run (handler g draw) (createReview request) plan s).1 = .ok r →
      ∃ r' ∈ (run (handler g draw) (createReview request) plan s).2.reviews.get? r.id,
        LatestChain g r') ∧
    (∀ plan request r, PushesChain g s request → ReachesAll g s request →
      (call g plan (processReviewUpdate request) s).1 = .ok r →
      ∃ r' ∈ (call g plan (processReviewUpdate request) s).2.reviews.get? r.id,
        LatestChain g r') := by
  refine ⟨h.invariant (I := RowsDescribe g) ?_ fun s e => rowsDescribe_step, ?_, ?_⟩
  · rintro _ ⟨_, _, rfl⟩ r hr
    cases hr
  · intro draw plan request r hchain hok
    have hout := step_createReview (g := g) (s := s) draw plan request
    rw [hok] at hout
    generalize (run (handler g draw) (createReview request) plan s).2 = s' at hout
    cases hout with
    | done hp hnew hall =>
      rename_i targetSha commits f
      refine ⟨f.review, ?_, latestChain_of_pushAll hall (fun d hd => nomatch hd) (hchain _ _ hp)⟩
      rw [show (s.newReview draw request.pusherId request.targetBranch).id = f.review.id from
        (Focus.pushAll_partly hall).id_eq.symm]
      exact get?_put_setRef
  · intro plan request r hchain hreach hok
    have hout := step_processReviewUpdate (g := g) (s := s) plan request
    rw [hok] at hout
    generalize (call g plan (processReviewUpdate request) s).2 = s' at hout
    cases hout with
    | done hi hall =>
      exact ⟨_, get?_put_setRef,
        latestChain_of_pushAll hall (hreach _ _ _ _ hi) (hchain _ _ hi.pushes)⟩

end

/-! ### A stack on the tip, and one behind it -/

/-- Commits 2, 3 and 4 on the root 1, one after the other. -/
def stackGit : Git := .stack 3

/-- The review of 2 and 3, with `main` at 1. -/
def stackState : RepoState :=
  play (step stackGit) [.createReview 5 [] ⟨"owner", "repo", "main", none, 3, 9⟩]
    (fresh 7 fun branch => if branch = "main" then some 1 else none)

theorem reach_stackState : Reach Fresh (step stackGit) (ChainPushes stackGit) stackState :=
  reach_play (.start ⟨_, _, rfl⟩)
    (by decide +kernel)

/-- An update to 4 adds a third diff. -/
theorem revisions_describe_graph_stack : ∃ r : Review,
    ∃ r' ∈ (call stackGit [] (processReviewUpdate ⟨"owner", "repo", "main", some 1, 4, 9⟩)
      stackState).2.reviews.get? r.id, LatestChain stackGit r' := by
  obtain ⟨r, hr⟩ := exists_ok (x := (call stackGit []
    (processReviewUpdate ⟨"owner", "repo", "main", some 1, 4, 9⟩) stackState).1) (by decide +kernel)
  exact ⟨r, (revisions_describe_graph stackGit stackState reach_stackState).2.2 _ _ r
    (by decide +kernel) (by decide +kernel) hr⟩

/-- Commit 2 is pushed on 1 when `main` is at 3: the parent stored for it is 3. -/
theorem not_rowsDescribe :
    ¬ ∀ (g : Git) (s : RepoState),
      Reach Fresh (step g) (fun _ e => ∃ draw plan request, e = .createReview draw plan request) s →
        RowsDescribe g s := by
  intro h
  have := h (Git.ofHistory [⟨[], 0, 0⟩, ⟨[], 1, 1⟩, ⟨[1], 2, 2⟩, ⟨[1], 3, 3⟩] (by decide)) _
    (.next (.createReview 5 [] ⟨"owner", "repo", "main", none, 2, 9⟩)
      (.start ⟨7, fun branch => if branch = "main" then some 3 else none, rfl⟩) ⟨_, _, _, rfl⟩)
  exact absurd this (by decide +kernel)

end Gitdot
