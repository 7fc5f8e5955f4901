/-
# Merging and the history of the target branch

A merge fast-forwards if the tip of the target branch is the parent stored
for the first diff it selects, and then moves the branch to the commit stored
for the last one. That keeps the history of the branch exactly if the commit
descends from the tip (`merge_keeps_history_iff`).

It does so in every state of the runs in which what is pushed is a stack on
the tip, an update leaves no later diff on a commit that an earlier one was
moved off, and a rebase is not cut short (`merges_keep_history`). What carries
this is `Stacked`: among the unmerged diffs of a review, the parent stored for
one is an ancestor of the commit of every later one.

Key definitions: `Stacked`, `KeepsHistory`, `Forward`.
Key theorems: `merge_keeps_history_iff`, `stacked_pushPartly`,
`stacked_step`, `merges_keep_history`.
-/
import Gitdot.Review.Contained

namespace Gitdot

open Lib Prog

/-- Positions count from 1, and the parent stored for an unmerged diff is an
ancestor of the commit of each unmerged diff from there on. -/
structure Stacked (g : Git) (r : Review) : Prop where
  pos : ∀ d ∈ r.diffs.rows, 1 ≤ d.position
  anc : ∀ d ∈ r.diffs.rows, ∀ d' ∈ r.diffs.rows, d.status ≠ .merged → d'.status ≠ .merged →
    d.position ≤ d'.position → ∀ v ∈ d.latest?, ∀ v' ∈ d'.latest?, g.Anc v.parentHash v'.commitHash

/-- What is pushed is a stack on the tip of the target branch. -/
def PushesStack (g : Git) (s : RepoState) (request : ProcessReviewRequest) : Prop :=
  ∀ p ∈ pushed g s request, Stack g.parents (p.1 :: p.2.map Commit.sha)

/-- No call of an update fails, from outside or because a ref exists or a
revision is missing. -/
def UpdateThrough (g : Git) (s : RepoState) (plan : List Bool) (request : ProcessReviewRequest) :
    Prop :=
  plan = [] ∧ ∀ i ∈ updateInput g s request, ∀ n ∈ numbered 1 i.2.2.1 i.2.2.2,
    ClearAt g (s.focus i.2.1) n

/-- An update moves every later unmerged diff along, or the commit of that diff
descends from what is numbered before. -/
def LaterDescend (g : Git) (s : RepoState) (plan : List Bool) (request : ProcessReviewRequest) :
    Prop :=
  ∀ i ∈ updateInput g s request, ∀ n ∈ numbered 1 i.2.2.1 i.2.2.2, ∀ d ∈ i.2.1.diffs.rows,
    d.status ≠ .merged → n.position < d.position →
      (UpdateThrough g s plan request ∧
        ∃ m ∈ numbered 1 i.2.2.1 i.2.2.2, m.position = d.position) ∨
      ∀ v ∈ d.latest?, g.Anc n.previousSha v.commitHash

/-- The commits can be cherry-picked one after the other. -/
def PicksThrough (g : Git) : Sha → List (Diff × Revision) → Prop
  | _, [] => True
  | parent, p :: rest =>
    match g.cherryPickCommit p.2.commitHash parent with
    | .ok new => PicksThrough g new rest
    | .error _ => False

/-- A merge that rebases does so for all its diffs and with no failing call, or
for none. -/
def RebasesWhole (g : Git) (s : RepoState) (plan : List Bool) (request : MergeReviewDiffRequest) :
    Prop :=
  ∀ i ∈ mergeInput s request, i.2.2.2 ≠ i.2.1.2.parentHash →
    (plan = [] ∧ PicksThrough g i.2.2.2 (i.2.1 :: i.2.2.1)) ∨
      (g.cherryPickCommit i.2.1.2.commitHash i.2.2.2).isOk = false

/-- The guard of the runs in which merges keep history. -/
def KeepsHistory (g : Git) (s : RepoState) : Event → Prop
  | .createReview _ _ request => PushesStack g s request
  | .processReviewUpdate plan request => PushesStack g s request ∧ LaterDescend g s plan request
  | .mergeReviewDiff plan request => RebasesWhole g s plan request
  | .push branch sha => PushForward g s branch sha
  | _ => True

section Decide

variable (g : Git) (s : RepoState)

instance decidablePicksThrough : (parent : Sha) → (sel : List (Diff × Revision)) →
    Decidable (PicksThrough g parent sel)
  | _, [] => .isTrue trivial
  | parent, p :: rest =>
    match hpick : g.cherryPickCommit p.2.commitHash parent with
    | .ok new => @decidable_of_iff _ (PicksThrough g new rest) (by simp only [PicksThrough, hpick])
      (decidablePicksThrough new rest)
    | .error _ => .isFalse (by simp only [PicksThrough, hpick, not_false_eq_true])

instance (plan : List Bool) (request : ProcessReviewRequest) :
    Decidable (UpdateThrough g s plan request) :=
  inferInstanceAs (Decidable (plan = [] ∧ ∀ i ∈ updateInput g s request,
    ∀ n ∈ numbered 1 i.2.2.1 i.2.2.2, ClearAt g (s.focus i.2.1) n))

instance [∀ a b, Decidable (g.Anc a b)] : (e : Event) → Decidable (KeepsHistory g s e)
  | .createReview _ _ request => inferInstanceAs (Decidable (∀ p ∈ pushed g s request,
    Stack g.parents (p.1 :: p.2.map Commit.sha)))
  | .processReviewUpdate plan request => inferInstanceAs (Decidable ((∀ p ∈ pushed g s request,
      Stack g.parents (p.1 :: p.2.map Commit.sha)) ∧
    ∀ i ∈ updateInput g s request, ∀ n ∈ numbered 1 i.2.2.1 i.2.2.2, ∀ d ∈ i.2.1.diffs.rows,
      d.status ≠ .merged → n.position < d.position →
        (UpdateThrough g s plan request ∧
          ∃ m ∈ numbered 1 i.2.2.1 i.2.2.2, m.position = d.position) ∨
        ∀ v ∈ d.latest?, g.Anc n.previousSha v.commitHash))
  | .mergeReviewDiff plan request => inferInstanceAs (Decidable (∀ i ∈ mergeInput s request,
    i.2.2.2 ≠ i.2.1.2.parentHash →
      (plan = [] ∧ PicksThrough g i.2.2.2 (i.2.1 :: i.2.2.1)) ∨
        (g.cherryPickCommit i.2.1.2.commitHash i.2.2.2).isOk = false))
  | .push branch sha => inferInstanceAs (Decidable (∀ tip ∈ s.refs (getTargetRef branch),
    g.Anc tip sha))
  | .publishReview .. | .publishReviewDiff .. | .updateReview .. | .updateReviewDiff .. =>
    .isTrue trivial

end Decide

section

variable {g : Git} {s s' : RepoState} {f f' : Focus}

/-! ### One merge -/

/-- The commit that a fast-forward goes to descends from the tip. -/
def ForwardDescends (g : Git) (s : RepoState) (request : MergeReviewDiffRequest) : Prop :=
  ∀ i ∈ mergeInput s request, i.2.2.2 = i.2.1.2.parentHash →
    g.Anc i.2.2.2 (i.2.2.1.getLastD i.2.1).2.commitHash

/-- The branches once a merge has moved its target. -/
theorem refs_moved {review : Review} {first : Diff × Revision}
    {rest sel : List (Diff × Revision)} {targetSha commit : Sha} {status : Option ReviewStatus}
    (hland : Landing g (s.focus review) targetSha first rest f commit) :
    (s.put (((f.moveTarget commit).markAll sel).setStatus status)).refs =
      f.refs.set (getTargetRef review.targetBranch) commit ∧
      ∀ branch, f.refs (getTargetRef branch) = s.refs (getTargetRef branch) := by
  have hbranch : f.review.targetBranch = review.targetBranch := by rw [hland.review]
  constructor
  · rw [RepoState.put_refs, Focus.setStatus_refs, Focus.markAll_refs, Focus.moveTarget, hbranch]
    rfl
  · rcases hland with ⟨-, rfl, -⟩ | ⟨-, hall⟩
    · exact fun _ => rfl
    · exact (Focus.rebaseAll_partly hall).heads

/-- **One merge.** From any state, a merge that succeeds leaves every branch
where it was or at a descendant exactly if it does not fast-forward to a
commit that does not descend from the tip. -/
theorem merge_keeps_history_iff {plan : List Bool} {request : MergeReviewDiffRequest}
    {review : Review} (hok : (call g plan (mergeReviewDiff request) s).1 = .ok review) :
    Forward g s.refs (call g plan (mergeReviewDiff request) s).2.refs ↔
      ForwardDescends g s request := by
  have hout := step_mergeReviewDiff (g := g) (s := s) plan request
  rw [hok] at hout
  generalize (call g plan (mergeReviewDiff request) s).2 = s' at hout
  cases hout with
  | done _ hi hland =>
    rename_i r first rest targetSha f commit
    obtain ⟨hrefs, hheads⟩ := refs_moved hland
    rw [hrefs]
    have hinput := mergeInput_eq_some_iff.mpr hi
    constructor
    · intro hfwd i hmem hff
      obtain rfl := Option.some.inj (hinput.symm.trans hmem)
      obtain ⟨tip, htip, hanc⟩ := hfwd _ _ hi.target
      rw [Refs.set_self] at htip
      obtain rfl := Option.some.inj htip
      rcases hland with ⟨-, -, rfl⟩ | ⟨hne, -⟩
      · exact hanc
      · exact absurd hff hne
    · intro hdesc branch tip htip
      have hmove : ∀ tip' ∈ f.refs (getTargetRef r.targetBranch), g.Anc tip' commit := by
        intro tip' htip'
        obtain rfl := Option.some.inj (hi.target.symm.trans ((hheads _).symm.trans htip'))
        rcases hland with ⟨hff, -, rfl⟩ | ⟨-, hall⟩
        · exact hdesc _ hinput hff
        · exact (rebaseAll_landed hi.selects hall).1
      exact forward_set hmove branch tip ((hheads branch).trans htip)

/-! ### Stacks of unmerged diffs -/

/-- The latest commit of a stacked review's last selected diff descends from
the parent stored for the first. -/
theorem Stacked.forwardDescends {request : MergeReviewDiffRequest}
    (h : ∀ r ∈ s.reviews.rows, Stacked g r) : ForwardDescends g s request := by
  rintro ⟨review, first, rest, targetSha⟩ hmem hff
  have hi := mergeInput_eq_some_iff.mp hmem
  have hlast : rest.getLastD first ∈ first :: rest := List.getLastD_mem_cons
  have hle : first.1.position ≤ (rest.getLastD first).1.position := by
    rcases List.mem_cons.mp hlast with heq | hmem
    · rw [heq]
    · exact ((List.pairwise_cons.mp hi.sorted).1 _ hmem).le
  obtain ⟨hfirst, -, hunmerged⟩ := hi.mem_selected (List.mem_cons_self (a := first) (l := rest))
  obtain ⟨hlastrow, -, hlastunmerged⟩ := hi.mem_selected hlast
  have := (h review (Table.mem_rows_of_get? hi.get?)).anc _ hfirst _ hlastrow hunmerged
    hlastunmerged hle _ (hi.latest _ (.head _)) _ (hi.latest _ hlast)
  simp only at hff
  rwa [hff]

/-- Each diff of `f'` is merged or a diff of `f` with the same latest revision. -/
theorem stacked_of_diffs (h : Stacked g f.review)
    (hd : ∀ k d', f'.diff? k = some d' → ∃ d, f.diff? k = some d ∧
      (d'.status ≠ .merged → d.status ≠ .merged ∧ d.latest? = d'.latest?)) :
    Stacked g f'.review where
  pos d' hd' := by
    obtain ⟨d, hget, -⟩ := hd _ d' (Focus.diff?_of_mem hd')
    rw [← Focus.position_of_diff? hget]
    exact h.pos d (Table.mem_rows_of_get? hget)
  anc d hdmem d' hdmem' hm hm' hle v hv v' hv' := by
    obtain ⟨e, hget, he⟩ := hd _ d (Focus.diff?_of_mem hdmem)
    obtain ⟨e', hget', he'⟩ := hd _ d' (Focus.diff?_of_mem hdmem')
    have hle : e.position ≤ e'.position := by
      rwa [Focus.position_of_diff? hget, Focus.position_of_diff? hget']
    exact h.anc e (Table.mem_rows_of_get? hget) e' (Table.mem_rows_of_get? hget') (he hm).1
      (he' hm').1 hle v ((he hm).2 ▸ hv) v' ((he' hm').2 ▸ hv')

/-- The latest revision of `d` is the commit numbered onto its position. -/
def IsPushed (d : Diff) (n : Numbered) : Prop :=
  n.position = d.position ∧
    ∀ v ∈ d.latest?, v.commitHash = n.commit.sha ∧ v.parentHash = n.previousSha

theorem Settled.isPushed {n : Numbered} {d : Diff} (h : Settled f n) (hd : d ∈ f.review.diffs.rows)
    (hpos : n.position = d.position) : IsPushed d n := by
  obtain ⟨e, _, he, hlatest, -⟩ := h
  obtain rfl : d = e := Option.some.inj ((Focus.diff?_of_mem hd).symm.trans (hpos ▸ he))
  refine ⟨hpos, fun v hv => ?_⟩
  obtain rfl := Option.some.inj (hv.symm.trans hlatest)
  exact ⟨rfl, rfl⟩

/-- However far the push of a stack gets, the review stays stacked, if each
later diff that is not moved along descends from what is numbered before. -/
theorem stacked_pushPartly {prev : Sha} {commits : List Commit} (h : Stacked g f.review)
    (hstack : Stack g.parents (prev :: commits.map Commit.sha))
    (hpart : PushPartly g 1 prev commits f f')
    (hlater : ∀ n ∈ numbered 1 prev commits, ∀ d ∈ f.review.diffs.rows, d.status ≠ .merged →
      n.position < d.position →
        (∃ m ∈ numbered 1 prev commits, m.position = d.position ∧ Settled f' m) ∨
        ∀ v ∈ d.latest?, g.Anc n.previousSha v.commitHash) : Stacked g f'.review := by
  have hclass : ∀ d ∈ f'.review.diffs.rows, d ∈ f.review.diffs.rows ∨
      ∃ n ∈ numbered 1 prev commits, IsPushed d n := fun d hd => by
    rcases hpart.diff? d.position with hsame | ⟨n, hn, hpos, d', hd', hpushed⟩
    · rw [Focus.diff?_of_mem hd] at hsame
      exact .inl (Table.mem_rows_of_get? hsame.symm)
    · obtain rfl := Option.some.inj ((Focus.diff?_of_mem hd).symm.trans hd')
      exact .inr ⟨n, hn, hpos, fun v hv => hpushed.latest hv⟩
  have hpushed : ∀ d d' n m, n ∈ numbered 1 prev commits → m ∈ numbered 1 prev commits →
      IsPushed d n → IsPushed d' m → d.position ≤ d'.position →
      ∀ v ∈ d.latest?, ∀ v' ∈ d'.latest?, g.Anc v.parentHash v'.commitHash :=
    fun d d' n m hn hm hdn hdm hle v hv v' hv' => by
      rw [(hdn.2 v hv).2, (hdm.2 v' hv').1]
      exact (anc_of_stack hstack n hn).2 m hm (by rw [hdn.1, hdm.1]; exact hle)
  refine ⟨fun d hd => ?_, fun d hd d' hd' hu hu' hle => ?_⟩
  · rcases hclass d hd with hold | ⟨n, hn, hpos, -⟩
    · exact h.pos d hold
    · exact hpos ▸ le_of_mem_numbered hn
  · have hsame : d.position = d'.position → d = d' := fun hpos => Option.some.inj
      ((Focus.diff?_of_mem hd).symm.trans (hpos ▸ Focus.diff?_of_mem hd'))
    rcases hclass d hd with hold | ⟨n, hn, hdn⟩ <;> rcases hclass d' hd' with hold' | ⟨m, hm, hdm⟩
    · exact h.anc d hold d' hold' hu hu' hle
    · -- the push reached `d'`, so it is done with the position of `d` or did not change `d'`
      obtain ⟨cut, -, hdone, hrest⟩ := hpart.cut
      rcases lt_or_ge cut d'.position with hcut | hcut
      · have hget := hrest d'.position (.inr hcut)
        rw [Focus.diff?_of_mem hd'] at hget
        exact h.anc d hold d' (Table.mem_rows_of_get? hget.symm) hu hu' hle
      · rcases eq_or_lt_of_le hle with hpos | hlt
        · exact hpushed d d' m m hm hm (hsame hpos ▸ hdm) hdm hle
        · obtain ⟨n, hn, hpos, hset⟩ := hdone d.position (h.pos d hold) (hlt.trans_le hcut)
          exact hpushed d d' n m hn hm (hset.isPushed hd hpos) hdm hle
    · rcases eq_or_lt_of_le hle with hpos | hlt
      · exact hpushed d d' n n hn hn hdn (hsame hpos ▸ hdn) hle
      · rcases hlater n hn d' hold' hu' (hdn.1 ▸ hlt) with ⟨m, hm, hpos, hset⟩ | hanc
        · exact hpushed d d' n m hn hm hdn (hset.isPushed hd' hpos) hle
        · intro v hv v' hv'
          rw [(hdn.2 v hv).2]
          exact hanc v' hv'
    · exact hpushed d d' n m hn hm hdn hdm hle

/-! ### Steps -/

/-- Every review of the state is stacked. -/
def AllStacked (g : Git) (s : RepoState) : Prop := ∀ r ∈ s.reviews.rows, Stacked g r

theorem stacked_createStep {request : ProcessReviewRequest} {draw : Uuid} (h : AllStacked g s)
    (hstack : PushesStack g s request) (hstep : PushStep g s request (some draw) s') :
    AllStacked g s' := by
  have hpart : ∀ {review targetSha commits f},
      PushBase g s request (some draw) review targetSha commits →
      PushPartly g 1 targetSha commits (s.focus review) f → Stacked g f.review := by
    intro review targetSha commits f hb hpart
    cases hb with
    | create hp =>
      exact stacked_pushPartly (f := s.focus _)
        ⟨fun d hd => absurd hd List.not_mem_nil, fun d hd => absurd hd List.not_mem_nil⟩
        (hstack _ (pushed_eq_some_iff.mpr hp)) hpart fun n hn d hd => absurd hd List.not_mem_nil
  cases hstep with
  | nothing => exact h
  | partly hb h' => exact RepoState.forall_put h (hpart hb h')
  | through hb hall =>
    have hf := hpart hb (Focus.pushAll_partly hall)
    exact RepoState.forall_put h hf

/-- The diffs an update has moved along are settled, when none of its calls
fails. -/
theorem stacked_updateOutcome {request : ProcessReviewRequest} {F : Call → RepoState → Prop}
    {plan : List Bool} {r : Except ReviewError Review} (h : AllStacked g s)
    (hstack : PushesStack g s request) (hlater : LaterDescend g s plan request)
    (hF : plan = [] → ¬ Faulty F) (hout : UpdateOutcome g s request F r s') : AllStacked g s' := by
  -- `hthrough` is what is known of the state if no call fails
  have hpart : ∀ {number review targetSha commits f},
      UpdateInput g s request number review targetSha commits →
      PushPartly g 1 targetSha commits (s.focus review) f →
      (UpdateThrough g s plan request → ∀ m ∈ numbered 1 targetSha commits, Settled f m) →
      Stacked g f.review := by
    intro number review targetSha commits f hi hpart hthrough
    have hinput := updateInput_eq_some_iff.mpr hi
    refine stacked_pushPartly (f := s.focus review) (h _ (Table.mem_rows_of_get? hi.get?))
      (hstack _ (pushed_eq_some_iff.mpr hi.pushes)) hpart fun n hn d hd hu hlt => ?_
    rcases hlater _ hinput n hn d hd hu hlt with ⟨hall, m, hm, hpos⟩ | hanc
    · exact .inl ⟨m, hm, hpos, hthrough hall m hm⟩
    · exact .inr hanc
  have hclear : ∀ {number review targetSha commits},
      UpdateInput g s request number review targetSha commits → UpdateThrough g s plan request →
      ∃ f, (s.focus review).pushAll g 1 targetSha commits = some f := fun hi hall =>
    exists_pushAll (hall.2 _ (updateInput_eq_some_iff.mpr hi))
  cases hout with
  | refused => exact h
  | stopped hi hcall hfault =>
    exact RepoState.forall_put h (hpart hi hcall.partly fun hall =>
      absurd ⟨_, _, hfault⟩ (hF hall.1))
  | blocked _ hi hnone h' =>
    refine RepoState.forall_put h (hpart hi h' fun hall => ?_)
    obtain ⟨f, hf⟩ := hclear hi hall
    rw [hnone] at hf
    cases hf
  | head _ hi hall =>
    exact RepoState.forall_put h
      (hpart hi (Focus.pushAll_partly hall) fun _ => settled_of_pushAll hall)
  | late _ hi hall =>
    have hf := hpart hi (Focus.pushAll_partly hall) fun _ => settled_of_pushAll hall
    exact RepoState.forall_put h hf
  | done hi hall =>
    have hf := hpart hi (Focus.pushAll_partly hall) fun _ => settled_of_pushAll hall
    exact RepoState.forall_put h hf

theorem exists_rebaseAll : ∀ {sel : List (Diff × Revision)} {parent : Sha} {f : Focus},
    PicksThrough g parent sel → ∃ x, f.rebaseAll g parent sel = some x
  | [], _, _, _ => ⟨_, rfl⟩
  | (d, v) :: rest, parent, f, h => by
    unfold PicksThrough at h
    unfold Focus.rebaseAll
    split at h
    · next new hpick =>
      simp only [hpick]
      exact exists_rebaseAll h
    · exact h.elim

/-- If the first diff cannot be picked nothing is rebased. -/
theorem RebasePartly.eq_self {p : Diff × Revision} {rest : List (Diff × Revision)} {parent : Sha}
    (h : RebasePartly g parent (p :: rest) f f')
    (hpick : (g.cherryPickCommit p.2.commitHash parent).isOk = false) : f' = f := by
  cases h with
  | stop => rfl
  | half hok => rw [hok] at hpick; cases hpick
  | step hok => rw [hok] at hpick; cases hpick

/-- Marking all the selected diffs of a landed merge leaves the others. -/
theorem stacked_markAll {request : MergeReviewDiffRequest} {review : Review}
    {first : Diff × Revision} {rest done : List (Diff × Revision)} {targetSha commit : Sha}
    (h : Stacked g review) (hi : MergeInput s request review first rest targetSha)
    (hland : Landing g (s.focus review) targetSha first rest f commit)
    (hdone : f = s.focus review ∨ done = first :: rest) :
    Stacked g ((f.moveTarget commit).markAll done).review := by
  refine stacked_of_diffs (f := s.focus review) h fun k d' hd' => ?_
  rw [Focus.diff?_markAll] at hd'
  have hold : ∀ d, f.diff? k = some d → ∃ d₀, (s.focus review).diff? k = some d₀ := fun d hd => by
    rcases hland with ⟨-, rfl, -⟩ | ⟨-, hall⟩
    · exact ⟨d, hd⟩
    · rcases (Focus.rebaseAll_partly hall).diff? k with hsame | ⟨q, hq, hpos, -⟩
      · exact ⟨d, hsame ▸ hd⟩
      · exact ⟨q.1, hpos ▸ hi.selects.diff? q hq⟩
  split_ifs at hd' with hk
  · obtain ⟨d, hd, rfl⟩ := Option.map_eq_some_iff.mp hd'
    obtain ⟨d₀, hd₀⟩ := hold d hd
    exact ⟨d₀, hd₀, fun hm => absurd rfl hm⟩
  · have hd' : f.diff? k = some d' := hd'
    have hsame : (s.focus review).diff? k = some d' := by
      rcases hdone with rfl | rfl
      · exact hd'
      · rcases hland with ⟨-, rfl, -⟩ | ⟨-, hall⟩
        · exact hd'
        · rwa [(Focus.rebaseAll_partly hall).diff?_of_not_selected hk] at hd'
    exact ⟨d', hsame, fun hm => ⟨hm, rfl⟩⟩

theorem stacked_mergeStep {request : MergeReviewDiffRequest} {F : Call → RepoState → Prop}
    {plan : List Bool} (h : AllStacked g s) (hwhole : RebasesWhole g s plan request)
    (hF : plan = [] → ¬ Faulty F) (hstep : MergeStep g s request F s') : AllStacked g s' := by
  cases hstep with
  | nothing => exact h
  | rebasing hi hne hpart hwhy =>
    rcases hwhole _ (mergeInput_eq_some_iff.mpr hi) hne with ⟨hplan, hpicks⟩ | hpick
    · obtain ⟨x, hx⟩ := exists_rebaseAll (f := s.focus _) hpicks
      rcases hwhy with hfault | hnone
      · exact absurd hfault (hF hplan)
      · exact absurd (hnone.symm.trans hx) nofun
    · rw [hpart.eq_self hpick, RepoState.put_focus hi.get?]
      exact h
  | moved status hi hland hsel hdone =>
    have hf := stacked_markAll (h _ (Table.mem_rows_of_get? hi.get?)) hi hland <| by
      rcases hland with ⟨-, rfl, -⟩ | ⟨hne, hall⟩
      · exact .inl rfl
      · rcases hwhole _ (mergeInput_eq_some_iff.mpr hi) hne with ⟨hplan, -⟩ | hpick
        · have hnil := hdone.resolve_right (hF hplan)
          rw [hnil, List.append_nil] at hsel
          exact .inr hsel.symm
        · exact .inl ((Focus.rebaseAll_partly hall).eq_self hpick)
    exact RepoState.forall_put h ⟨hf.pos, hf.anc⟩

theorem stacked_editStep (h : AllStacked g s) (hstep : EditStep s s') : AllStacked g s' := by
  cases hstep with
  | nothing => exact h
  | published hr =>
    have hreview := h _ (Table.mem_rows_of_get? hr)
    exact RepoState.forall_put h ⟨hreview.pos, hreview.anc⟩
  | texts _ _ hr =>
    have hreview := h _ (Table.mem_rows_of_get? hr)
    exact RepoState.forall_put h ⟨hreview.pos, hreview.anc⟩
  | publishedDiff hr hstatus hd hdraft =>
    rename_i review d
    refine RepoState.forall_put h (stacked_of_diffs (f := s.focus review)
      (h _ (Table.mem_rows_of_get? hr)) fun k d' hd' => ?_)
    rw [Focus.diff?_setDiff] at hd'
    split_ifs at hd' with hk
    · cases hd'
      exact ⟨d, hk ▸ Table.get?_key hd, fun _ => ⟨by simp [hdraft], rfl⟩⟩
    · exact ⟨d', hd', fun hm => ⟨hm, rfl⟩⟩
  | message _ hr hd =>
    rename_i review d message
    refine RepoState.forall_put h (stacked_of_diffs (f := s.focus review)
      (h _ (Table.mem_rows_of_get? hr)) fun k d' hd' => ?_)
    rw [Focus.diff?_setDiff] at hd'
    split_ifs at hd' with hk
    · cases hd'
      exact ⟨d, hk ▸ Table.get?_key hd, fun hm => ⟨hm, rfl⟩⟩
    · exact ⟨d', hd', fun hm => ⟨hm, rfl⟩⟩

theorem not_faulty_false : ¬ Faulty fun _ _ => False := fun ⟨_, _, h⟩ => h

/-- One event that meets the guard keeps the reviews stacked. -/
theorem stacked_step {e : Event} (h : AllStacked g s) (hg : KeepsHistory g s e) :
    AllStacked g (step g e s) := by
  cases e with
  | createReview draw plan request =>
    exact stacked_createStep h hg (step_createReview draw plan request).pushStep
  | processReviewUpdate plan request =>
    by_cases hplan : plan = []
    · subst hplan
      exact stacked_updateOutcome h hg.1 hg.2 (fun _ => not_faulty_false)
        (of_wp_nil wp_processReviewUpdate)
    · exact stacked_updateOutcome h hg.1 hg.2 (fun hnil => absurd hnil hplan)
        (step_processReviewUpdate plan request)
  | mergeReviewDiff plan request =>
    by_cases hplan : plan = []
    · subst hplan
      exact stacked_mergeStep h hg (fun _ => not_faulty_false)
        (of_wp_nil wp_mergeReviewDiff).mergeStep
    · exact stacked_mergeStep h hg (fun hnil => absurd hnil hplan)
        (step_mergeReviewDiff plan request).mergeStep
  | publishReview plan request => exact stacked_editStep h (of_wp wp_publishReview)
  | publishReviewDiff plan request => exact stacked_editStep h (of_wp wp_publishReviewDiff)
  | updateReview plan request => exact stacked_editStep h (of_wp wp_updateReview)
  | updateReviewDiff plan request => exact stacked_editStep h (of_wp wp_updateReviewDiff)
  | push branch sha => exact h

/-- **History.** In every state of a run that meets the guard, a merge that
succeeds leaves each branch where it was or at a descendant, whatever its
request. -/
theorem merges_keep_history (g : Git) (s : RepoState)
    (h : Reach Fresh (step g) (KeepsHistory g) s) (plan : List Bool)
    (request : MergeReviewDiffRequest) (review : Review)
    (hok : (call g plan (mergeReviewDiff request) s).1 = .ok review) :
    Forward g s.refs (call g plan (mergeReviewDiff request) s).2.refs := by
  have hstacked : AllStacked g s := by
    refine h.invariant (I := AllStacked g) ?_ fun s e => stacked_step
    rintro _ ⟨_, _, rfl⟩ r hr
    cases hr
  exact (merge_keeps_history_iff hok).mpr (Stacked.forwardDescends hstacked)

end

/-! ### A rebase, and a stack behind the tip -/

/-- The state of the run of `mergedInTwo` before its last merge. -/
def halfMerged : RepoState :=
  play (step twoRunsGit) mergedInTwo.dropLast
    (fresh 7 fun branch => if branch = "main" then some 1 else none)

/-- The last merge of that run rebases the second diff. -/
theorem merges_keep_history_halfMerged : Forward twoRunsGit halfMerged.refs
    (call twoRunsGit [] (mergeReviewDiff ⟨"owner", "repo", 1, 2⟩) halfMerged).2.refs := by
  have hrun : Reach Fresh (step twoRunsGit) (KeepsHistory twoRunsGit) halfMerged :=
    reach_play (.start ⟨_, _, rfl⟩) (by decide +kernel)
  obtain ⟨r, hr⟩ := exists_ok
    (x := (call twoRunsGit [] (mergeReviewDiff ⟨"owner", "repo", 1, 2⟩) halfMerged).1)
    (by decide +kernel)
  exact merges_keep_history _ _ hrun _ _ r hr

/-- Commit 6 on 1 is pushed for review when `main` is at 2. -/
def pushedBehind : RepoState :=
  play (step twoRunsGit)
    [.createReview 5 [] ⟨"owner", "repo", "main", none, 6, 9⟩,
      .publishReviewDiff [] ⟨"owner", "repo", 1, 1⟩, .publishReview [] ⟨"owner", "repo", 1⟩]
    (fresh 7 fun branch => if branch = "main" then some 2 else none)

/-- The merge takes the stored parent 2 for that of 6 and moves `main` to 6. -/
theorem not_merges_keep_history :
    ¬ ∀ (g : Git) (s : RepoState), Reach Fresh (step g) (ForwardPushes g) s →
      ∀ (plan : List Bool) (request : MergeReviewDiffRequest) (review : Review),
        (call g plan (mergeReviewDiff request) s).1 = .ok review →
        Forward g s.refs (call g plan (mergeReviewDiff request) s).2.refs := by
  intro h
  have hrun : Reach Fresh (step twoRunsGit) (ForwardPushes twoRunsGit) pushedBehind :=
    reach_play (.start ⟨_, _, rfl⟩) ⟨trivial, trivial, trivial, trivial⟩
  obtain ⟨r, hr⟩ := exists_ok
    (x := (call twoRunsGit [] (mergeReviewDiff ⟨"owner", "repo", 1, 1⟩) pushedBehind).1)
    (by decide +kernel)
  obtain ⟨tip, htip, hanc⟩ := h _ _ hrun _ _ r hr "main" 2 (by decide +kernel)
  have hmain : (call twoRunsGit [] (mergeReviewDiff ⟨"owner", "repo", 1, 1⟩)
      pushedBehind).2.refs (getTargetRef "main") = some 6 := by decide +kernel
  obtain rfl : 6 = tip := Option.some.inj (hmain.symm.trans htip)
  exact absurd hanc (by decide +kernel)

end Gitdot
