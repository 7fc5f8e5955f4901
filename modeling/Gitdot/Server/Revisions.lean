/-
# The revisions that calls create

Page loads, updates by push and submissions of reviewers run side by side,
each a program of its calls on the server's store. A review of the store
keeps its id, its number and the latest revision of each of its diffs under
every call but `create_revision`, and that one gives a new revision to the
one diff it names (`execReview_kept`). So whatever calls come between two
reads of a review, its diff has the same latest revision in both unless one
of the calls created a revision of it.

Key definitions: `ReviewCall`, `reviewCalls`, `ReviewOp`, `reviewNext`,
`latestRevision`, `Kept`, `WorldKept`.
Key theorems: `exec_kept`, `WorldKept.getReviewByNumber`, `execReview_kept`.
-/
import Gitdot.Lib.Pool
import Gitdot.Server.Writers

namespace Gitdot

open Lib Prog

/-! ### Calls -/

/-- A call of the review service on the repository at a path, or a call on
comments and verdicts. -/
inductive ReviewCall where
  | service (owner repo : String) (c : Call)
  | comment (c : CommentCall)
  deriving DecidableEq

@[reducible] def ReviewCall.Resp : ReviewCall → Type
  | .service _ _ c => c.Resp
  | .comment c => c.Resp

namespace World

/-- The repository that has the review. -/
def repositoryOf (w : World) (review : Uuid) : Option Repository :=
  w.repositories.rows.find? fun r => (r.reviews.get? review).isSome

/-- The repository a call is about: the one whose row it names by its id or
through a review, or the one at its path. -/
def repositoryFor (w : World) (owner repo : String) : Call → Option Repository
  | .getReviewByNumber number => w.repositoryWith owner repo number
  | .createReview repository _ _ => w.repositories.get? repository
  | .updateReview id _ _ _ => w.repositoryOf id
  | .createDiff review _ _ => w.repositoryOf review
  | .updateDiff id _ _ => w.repositoryOf id.review
  | .createRevision diff _ _ _ => w.repositoryOf diff.review
  | .updateRevisionSha id _ _ => w.repositoryOf id.diff.review
  | _ => w.getRepository owner repo

/-- Performs a call of the review service. -/
def execService (w : World) (g : Git) (owner repo : String) (c : Call) :
    Except CallError c.Resp × World :=
  let repository := w.repositoryFor owner repo c
  let out := exec g 0 c (w.view owner repo repository)
  (out.1, w.putView owner repo repository out.2)

def execReview (g : Git) (draw : ℕ → Uuid) : (c : ReviewCall) → World →
    Except CallError c.Resp × World
  | .service owner repo c, w => w.execService g owner repo c
  | .comment c, w => execComment draw c w

end World

/-- What answers the calls, `draw` drawing the ids of comments. -/
def reviewCalls (g : Git) (draw : ℕ → Uuid) :
    Handler ReviewCall ReviewCall.Resp CallError World where
  exec := World.execReview g draw
  fault
    | .service _ _ c => callFault c
    | .comment _ => .database .connection

/-! ### Requests -/

/-- What is asked: the review for a page, an update by a push, a submission by
a reviewer who has the page of the request number `page`. -/
inductive ReviewOp where
  | getReview (owner repo : String) (number : ℤ)
  | processReviewUpdate (request : ProcessReviewRequest)
  | reviewReviewDiff (page : ℕ) (request : ReviewReviewDiffRequest)
  deriving DecidableEq

abbrev ReviewCallProg := Prog ReviewCall ReviewCall.Resp CallError ReviewError

def reviewProgram : ReviewOp → ReviewCallProg Review
  | .getReview owner repo number =>
    (getReviewById owner repo number).mapCalls (.service owner repo)
  | .processReviewUpdate request =>
    (processReviewUpdate request).mapCalls (.service request.owner request.repo)
  | .reviewReviewDiff _ request => (reviewReviewDiff request).mapCalls .comment

abbrev ReviewPool := Pool ReviewOp ReviewCall ReviewCall.Resp CallError ReviewError Review World

abbrev ReviewMove := Move ReviewOp Empty

def reviewNext (g : Git) (draw : ℕ → Uuid) : ReviewMove → ReviewPool → ReviewPool :=
  Pool.next (reviewCalls g draw) reviewProgram fun e => nomatch e

/-- No request has come yet. -/
def idle (w : World) : ReviewPool := ⟨⟨w, []⟩, []⟩

/-! ### The latest revision -/

/-- The latest revision of the diff at a position. -/
def latestRevision (review : Review) (position : ℤ) : Option RevisionId :=
  (review.diffs.get? position).bind fun d =>
    d.latest?.map fun v => ⟨⟨review.id, d.position⟩, v.number⟩

/-- The latest revision of the diff that a submission is about. -/
def World.latestFor (w : World) (request : ReviewReviewDiffRequest) : Option RevisionId :=
  (w.getReviewByNumber request.owner request.repo request.number).bind fun review =>
    latestRevision review request.position

theorem latestRevision_diff {v : Review} {position : ℤ} {r : RevisionId}
    (h : latestRevision v position = some r) : r.diff = ⟨v.id, position⟩ := by
  obtain ⟨d, hd, hmap⟩ := Option.bind_eq_some_iff.mp h
  obtain ⟨revision, -, rfl⟩ := Option.map_eq_some_iff.mp hmap
  have hpos : d.position = position := Table.key_of_get? hd
  rw [← hpos]

/-! ### Rows that a call keeps -/

/-- The diffs that a call may give a new revision. -/
def Call.Revises : Call → DiffId → Prop
  | .createRevision diff _ _ _, d => d = diff
  | _, _ => False

def Call.CreatesReview : Call → Prop
  | .createReview _ _ _ => True
  | _ => False

/-- A review after a call that may give the diffs in `revised` a new revision. -/
structure Kept (revised : DiffId → Prop) (v v' : Review) : Prop where
  id : v'.id = v.id
  number : v'.number = v.number
  latest : ∀ position, revised ⟨v.id, position⟩ ∨
    latestRevision v' position = latestRevision v position

theorem Kept.refl (revised : DiffId → Prop) (v : Review) : Kept revised v v :=
  ⟨rfl, rfl, fun _ => .inr rfl⟩

/-- The latest revision is known from its number. -/
theorem latestRevision_congr {v v' : Review} {position : ℤ} (hid : v'.id = v.id)
    (h : (v'.diffs.get? position).bind (fun d => d.latest?.map Revision.number) =
      (v.diffs.get? position).bind fun d => d.latest?.map Revision.number) :
    latestRevision v' position = latestRevision v position := by
  have key : ∀ v : Review, latestRevision v position =
      ((v.diffs.get? position).bind fun d => d.latest?.map Revision.number).map fun number =>
        ⟨⟨v.id, position⟩, number⟩ := by
    intro v
    unfold latestRevision
    cases hd : v.diffs.get? position with
    | none => rfl
    | some d =>
      have hpos : d.position = position := Table.key_of_get? hd
      simp only [Option.bind_some, Option.map_map, hpos]
      rfl
  rw [key, key, h, hid]

/-- Rewriting the diffs of a review keeps what it keeps of each diff. -/
theorem kept_setDiffs {revised : DiffId → Prop} {s : RepoState} {id : Uuid}
    {f : Table Diff → Table Diff}
    (h : ∀ v, s.reviews.get? id = some v → ∀ position, revised ⟨id, position⟩ ∨
      ((f v.diffs).get? position).bind (fun d => d.latest?.map Revision.number) =
        (v.diffs.get? position).bind fun d => d.latest?.map Revision.number) :
    List.Forall₂ (Kept revised) s.reviews.rows (s.setDiffs id f).reviews.rows := by
  refine Table.forall₂_modify ?_ (Kept.refl revised) fun v hv => ⟨rfl, rfl, fun position => ?_⟩
  · exact fun _ => rfl
  have hid : v.id = id := Table.key_of_get? hv
  rw [hid]
  rcases h v hv position with hr | heq
  · exact .inl hr
  · exact .inr (latestRevision_congr hid.symm heq)

/-- A rewrite of a diff that keeps the number of its latest revision. -/
theorem latest?_modify (t : Table Diff) (position : ℤ) (f : Diff → Diff)
    (hf : ∀ d, Keyed.key (f d) = Keyed.key d)
    (hlatest : ∀ d, (f d).latest?.map Revision.number = d.latest?.map Revision.number) (k : ℤ) :
    ((t.modify position f hf).get? k).bind (fun d => d.latest?.map Revision.number) =
      (t.get? k).bind fun d => d.latest?.map Revision.number := by
  rw [Table.get?_modify]
  split_ifs with hk
  · rw [hk]
    cases t.get? position with
    | none => rfl
    | some d => exact hlatest d
  · rfl

/-- **Calls of the review service.** Reviews keep their latest revisions but for
the diff that a call creates a revision of. -/
theorem exec_kept {g : Git} {draw : Uuid} (c : Call) (s : RepoState) (hc : ¬ c.CreatesReview) :
    List.Forall₂ (Kept c.Revises) s.reviews.rows (exec g draw c s).2.reviews.rows := by
  have hsame : ∀ revised : DiffId → Prop,
      List.Forall₂ (Kept revised) s.reviews.rows s.reviews.rows :=
    fun revised => List.forall₂_same.mpr fun v _ => .refl revised v
  cases c with
  | createReview repository author targetBranch => exact absurd trivial hc
  | createRef name sha =>
    show List.Forall₂ _ _ (s.createRef name sha).2.reviews.rows
    unfold RepoState.createRef
    split
    · exact hsame _
    · exact hsame _
  | updateReview id status title description =>
    refine Table.forall₂_modify ?_ (Kept.refl _) fun v _ => ⟨rfl, rfl, fun _ => .inr rfl⟩
    exact fun _ => rfl
  | createDiff review position message =>
    show List.Forall₂ _ _ (s.createDiff review position message).2.reviews.rows
    unfold RepoState.createDiff
    split
    · exact hsame _
    · next r hr =>
      dsimp only
      split
      · exact hsame _
      · next diffs hins =>
        refine kept_setDiffs fun v hv k => .inr ?_
        obtain rfl := Option.some.inj (hv.symm.trans hr)
        rw [Table.get?_insert? hins]
        split_ifs with hk
        · rw [hk, Table.get?_none_of_insert? hins]
          rfl
        · rfl
  | updateDiff id status message =>
    refine kept_setDiffs fun v _ k => .inr (latest?_modify _ _ _ _ ?_ k)
    exact fun _ => rfl
  | createRevision diff number commitHash parentHash =>
    show List.Forall₂ _ _ (s.createRevision diff number commitHash parentHash).2.reviews.rows
    unfold RepoState.createRevision
    split
    · exact hsame _
    · dsimp only
      split
      · exact hsame _
      · refine kept_setDiffs fun v _ k => ?_
        rcases eq_or_ne k diff.position with rfl | hk
        · exact .inl rfl
        · rw [Table.get?_modify, if_neg hk]
          exact .inr rfl
  | updateRevisionSha id commitHash parentHash =>
    refine kept_setDiffs fun v _ k => .inr (latest?_modify _ _ _ _ (fun d => ?_) k)
    simp only [Diff.latest?, Table.last?, Table.modify, List.getLast?_map, Option.map_map]
    congr 1
    funext r
    dsimp only [Function.comp_apply]
    split_ifs <;> rfl
  | _ => exact hsame _

/-- A repository whose reviews are kept. -/
structure RepositoryKept (revised : DiffId → Prop) (r r' : Repository) : Prop where
  name : r'.name = r.name
  ownerId : r'.ownerId = r.ownerId
  reviews : List.Forall₂ (Kept revised) r.reviews.rows r'.reviews.rows

/-- A store after a call that may give the diffs in `revised` a new revision. -/
structure WorldKept (revised : DiffId → Prop) (w w' : World) : Prop where
  users : w'.users = w.users
  organizations : w'.organizations = w.organizations
  repositories : List.Forall₂ (RepositoryKept revised) w.repositories.rows w'.repositories.rows

theorem RepositoryKept.refl (revised : DiffId → Prop) (r : Repository) : RepositoryKept revised r r :=
  ⟨rfl, rfl, List.forall₂_same.mpr fun v _ => .refl revised v⟩

theorem WorldKept.of_eq {revised : DiffId → Prop} {w w' : World} (hu : w'.users = w.users)
    (ho : w'.organizations = w.organizations) (hr : w'.repositories = w.repositories) :
    WorldKept revised w w' :=
  ⟨hu, ho, hr ▸ List.forall₂_same.mpr fun r _ => .refl revised r⟩

/-- A path leads to the review it led to. -/
theorem WorldKept.getReviewByNumber {revised : DiffId → Prop} {w w' : World}
    (h : WorldKept revised w w') (owner repo : String) (number : ℤ) :
    Option.Rel (Kept revised) (w.getReviewByNumber owner repo number)
      (w'.getReviewByNumber owner repo number) := by
  have hfind : ∀ {r r' : Repository}, RepositoryKept revised r r' →
      Option.Rel (Kept revised) (r.getReviewByNumber number) (r'.getReviewByNumber number) :=
    fun hr => find?_rel (fun a b hab => by rw [hab.number]) hr.reviews
  have howners : w'.ownerIds owner = w.ownerIds owner := by
    simp only [World.ownerIds, h.users, h.organizations]
  have hrepo : Option.Rel (RepositoryKept revised) (w.repositoryWith owner repo number)
      (w'.repositoryWith owner repo number) := by
    simp only [World.repositoryWith, World.repositoriesAt, List.find?_filter]
    refine find?_rel (fun a b hab => ?_) h.repositories
    rw [hab.name, hab.ownerId, howners]
    rw [rel_isSome (hfind hab)]
  exact rel_bind hrepo fun _ _ hr => hfind hr

/-- The latest revision at a path changes with a revision of the diff only. -/
theorem WorldKept.latestAt {revised : DiffId → Prop} {w w' : World} (h : WorldKept revised w w')
    {owner repo : String} {number : ℤ} (position : ℤ) {review : Review}
    (hreview : w.getReviewByNumber owner repo number = some review) :
    ∃ review', w'.getReviewByNumber owner repo number = some review' ∧ review'.id = review.id ∧
      (revised ⟨review.id, position⟩ ∨
        latestRevision review' position = latestRevision review position) := by
  have hrel := h.getReviewByNumber owner repo number
  rw [hreview] at hrel
  obtain ⟨review', hreview', hkept⟩ := rel_some hrel
  exact ⟨review', hreview', hkept.id, hkept.latest position⟩

/-- The diffs that a call may give a new revision. -/
def ReviewCall.Revises : ReviewCall → DiffId → Prop
  | .service _ _ c, d => c.Revises d
  | .comment _, _ => False

def ReviewCall.CreatesReview : ReviewCall → Prop
  | .service _ _ c => c.CreatesReview
  | .comment _ => False

/-- The read of a review by its path. -/
theorem World.execService_read (w : World) (g : Git) (owner repo : String) (number : ℤ) :
    (w.execService g owner repo (.getReviewByNumber number)).1 =
      .ok (w.getReviewByNumber owner repo number) := by
  show Except.ok ((w.view owner repo (w.repositoryWith owner repo number)).getReviewByNumber number) =
    .ok ((w.repositoryWith owner repo number).bind fun r => r.getReviewByNumber number)
  cases w.repositoryWith owner repo number with
  | none => rfl
  | some r => rfl

/-- A call about a repository is about one of the store. -/
theorem World.repositoryFor_mem {w : World} {owner repo : String} {c : Call} {r : Repository}
    (h : w.repositoryFor owner repo c = some r) : r ∈ w.repositories.rows := by
  have hpath : ∀ {r : Repository}, r ∈ w.repositoriesAt owner repo → r ∈ w.repositories.rows :=
    fun hr => (World.mem_repositoriesAt.mp hr).1
  unfold World.repositoryFor at h
  split at h
  · exact hpath (World.repositoryWith_mem h)
  · exact Table.mem_rows_of_get? h
  all_goals first
    | exact List.mem_of_find?_eq_some h
    | exact hpath (World.getRepository_mem h)

/-- **Calls on the store.** -/
theorem execReview_kept {g : Git} {draw : ℕ → Uuid} (c : ReviewCall) (w : World)
    (hc : ¬ c.CreatesReview) : WorldKept c.Revises w ((reviewCalls g draw).exec c w).2 := by
  cases c with
  | service owner repo c =>
    refine ⟨rfl, rfl, ?_⟩
    show List.Forall₂ _ w.repositories.rows (w.execService g owner repo c).2.repositories.rows
    unfold World.execService
    cases hr : w.repositoryFor owner repo c with
    | none => exact List.forall₂_same.mpr fun r _ => .refl _ r
    | some r =>
      refine Table.forall₂_modify ?_ (RepositoryKept.refl _) fun a ha => ⟨rfl, rfl, ?_⟩
      · exact fun _ => rfl
      have hget : w.repositories.get? r.id = some r := Table.get?_key (World.repositoryFor_mem hr)
      obtain rfl := Option.some.inj (ha.symm.trans hget)
      exact exec_kept c (w.view owner repo (some a)) hc
  | comment c =>
    cases c with
    | createComment review diff revision author body parent place =>
      show WorldKept _ w (w.createComment _ review diff revision author body parent place).2
      unfold World.createComment
      dsimp only
      split_ifs
      · split
        · exact .of_eq rfl rfl rfl
        · exact .of_eq rfl rfl rfl
      · exact .of_eq rfl rfl rfl
    | updateComment id body =>
      show WorldKept _ w (w.updateComment id body).2
      unfold World.updateComment
      split
      · exact .of_eq rfl rfl rfl
      · exact .of_eq rfl rfl rfl
    | _ => exact .of_eq rfl rfl rfl
end Gitdot
