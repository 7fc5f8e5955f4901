/-
# Only writers move branches

A push to a branch is granted to who may push to the repository at the time;
a merge, which moves the same branch, to the author of the review. The author
has pushed the review, and what let the author do so is never taken back: no
request removes a member, changes the owner of a repository or makes one
readonly, and none rewrites an author (`Change`). So in every store the
server reaches, each review's author may push to its repository
(`AuthorsMayPush`), and a merge that goes through has passed the check a push
would have (`merge_needs_write`).

The check of a push is on the repository its path leads to, which is the one
merged into unless a user and an organization share the owner's name.

Key definitions: `AuthorsFrom`, `Change`, `AuthorsMayPush`.
Key theorems: `change_serve`, `Change.authorsMayPush`, `Change.unique`,
`merge_needs_write`.
-/
import Gitdot.Lib.Reach
import Gitdot.Server.Run

namespace Gitdot

open Lib Prog

/-! ### The authors of a repository's reviews -/

/-- Every author among the new rows was one among the old, or satisfies `P`. -/
def AuthorsFrom (old new : Table Review) (P : Uuid → Prop) : Prop :=
  ∀ v' ∈ new.rows, (∃ v ∈ old.rows, v.authorId = v'.authorId) ∨ P v'.authorId

theorem AuthorsFrom.refl (t : Table Review) (P : Uuid → Prop) : AuthorsFrom t t P :=
  fun v hv => .inl ⟨v, hv, rfl⟩

theorem AuthorsFrom.mono {old new : Table Review} {P Q : Uuid → Prop} (h : AuthorsFrom old new P)
    (hPQ : ∀ u, P u → Q u) : AuthorsFrom old new Q :=
  fun v hv => (h v hv).imp_right (hPQ _)

section

variable {g : Git} {s s' : RepoState} {P : Uuid → Prop}

/-- A focus put in adds no author but its own. -/
theorem authorsFrom_put {f : Focus} (h : (∃ v ∈ s.reviews.rows, v.authorId = f.review.authorId) ∨
    P f.review.authorId) : AuthorsFrom s.reviews (s.put f).reviews P :=
  RepoState.forall_put (AuthorsFrom.refl s.reviews P) h

theorem authorsFrom_put_of_get? {review : Review} {f : Focus}
    (hr : s.reviews.get? review.id = some review) (hf : f.review.authorId = review.authorId) :
    AuthorsFrom s.reviews (s.put f).reviews P :=
  authorsFrom_put (.inl ⟨review, Table.mem_rows_of_get? hr, hf.symm⟩)

theorem EditStep.authors (h : EditStep s s') : AuthorsFrom s.reviews s'.reviews P := by
  cases h with
  | nothing => exact .refl _ _
  | published hr => exact authorsFrom_put_of_get? hr rfl
  | publishedDiff hr => exact authorsFrom_put_of_get? hr rfl
  | texts _ _ hr => exact authorsFrom_put_of_get? hr rfl
  | message _ hr => exact authorsFrom_put_of_get? hr rfl

theorem MergeStep.authors {request : MergeReviewDiffRequest} {F : Call → RepoState → Prop}
    (h : MergeStep g s request F s') : AuthorsFrom s.reviews s'.reviews P := by
  cases h with
  | nothing => exact .refl _ _
  | rebasing hi hne h hwhy =>
    refine authorsFrom_put_of_get? hi.get? ?_
    rw [h.review]
    rfl
  | @moved review first rest targetSha f commit done todo status hi h hsel hdone hstatus hlast =>
    refine authorsFrom_put_of_get? hi.get? ?_
    show ((f.moveTarget commit).markAll done).review.authorId = _
    rw [Focus.markAll_review, Focus.moveTarget, Focus.setRef_review, h.review]

/-- A push for review adds its pusher if it creates the review. -/
theorem PushStep.authors {request : ProcessReviewRequest} {draw : Option Uuid}
    (h : PushStep g s request draw s') :
    AuthorsFrom s.reviews s'.reviews fun u => draw ≠ none ∧ u = request.pusherId := by
  have hbase : ∀ {review targetSha commits} {f : Focus},
      PushBase g s request draw review targetSha commits → f.review.authorId = review.authorId →
      AuthorsFrom s.reviews (s.put f).reviews fun u => draw ≠ none ∧ u = request.pusherId :=
    fun hb hf => by
      cases hb with
      | update hi =>
        exact authorsFrom_put_of_get? (RepoState.mem_of_getReviewByNumber hi.found).1 hf
      | create hp hnew => exact authorsFrom_put (.inr ⟨nofun, hf⟩)
  cases h with
  | nothing => exact .refl _ _
  | «partly» hb h =>
    refine hbase hb ?_
    rw [h.review]
    rfl
  | through hb h =>
    refine hbase hb ?_
    rw [Focus.setRef_review, (Focus.pushAll_partly h).review]
    rfl

end

/-! ### What a request may do -/

variable {w w' : World}

/-- What a request may do to accounts, memberships and repositories: members
are only added, a name given to a user is no other user's and one given to an
organization no one's, a repository is new and without reviews or keeps its
owner, does not become readonly, and gets no author who may not push to it. -/
inductive Change (w : World) : World → Prop where
  | other (members : List OrganizationMember) (comments : Table ReviewComment)
      (verdicts : List ReviewVerdict) (disk : String → String → Option Refs)
      (kept : ∀ m ∈ w.members, m ∈ members) :
      Change w { w with members := members, comments := comments, verdicts := verdicts,
                        disk := disk }
  | user {users : Table User} (id : Uuid) (name : String) (free : w.getUser name = none)
      (inserted : w.users.insert? ⟨id, name⟩ = some users) : Change w { w with users := users }
  | renamed (caller : Uuid) (name : String) (disk : String → String → Option Refs)
      (free : w.isNameTaken name = false) :
      Change w { w with
        users := w.users.modify caller (fun u => { u with name := name }) (User.key_named name)
        disk := disk }
  | organization {organizations : Table Organization} (id caller : Uuid) (name : String)
      (free : w.getOrganization name = none)
      (inserted : w.organizations.insert? ⟨id, name⟩ = some organizations) :
      Change w { w with organizations := organizations
                        members := ⟨caller, id, .admin⟩ :: w.members }
  | repository {repositories : Table Repository} (r : Repository)
      (disk : String → String → Option Refs) (bare : r.reviews = .empty)
      (free : ∀ q ∈ w.repositories.rows, ¬ (q.ownerId = r.ownerId ∧ q.name = r.name))
      (inserted : w.repositories.insert? r = some repositories) :
      Change w { w with repositories := repositories, disk := disk }
  | readonly (id : Uuid) (readonly : Option Bool) (writable : readonly ≠ some true) :
      Change w { w with
        repositories := w.repositories.modify id
          (fun r => { r with readonly := readonly.getD r.readonly }) fun _ => rfl }
  | deleted (id : Uuid) (comments : Table ReviewComment) (verdicts : List ReviewVerdict)
      (disk : String → String → Option Refs) :
      Change w { w with repositories := w.repositories.erase id, comments := comments,
                        verdicts := verdicts, disk := disk }
  | reviews (r : Repository) (reviews : Table Review) (disk : String → String → Option Refs)
      (row : r ∈ w.repositories.rows) (authors : AuthorsFrom r.reviews reviews (w.MayPush r)) :
      Change w { w with repositories := w.setReviews r.id reviews, disk := disk }

theorem Change.refl (w : World) : Change w w := .other _ _ _ _ fun _ h => h

/-! ### Reviews -/

section Reviews

variable {g : Git} {draw : Uuid} {plan : List Bool} {owner repo : String}
  {repository : Option Repository} {p : ReviewProg Review}

/-- A method run on a repository of the store. -/
theorem change_runAt {P : Uuid → Prop}
    (hmem : ∀ r, repository = some r → r ∈ w.repositories.rows ∧ ∀ u, P u → w.MayPush r u)
    (h : AuthorsFrom (w.view owner repo repository).reviews
      (run (handler g draw) p plan (w.view owner repo repository)).2.reviews P) :
    Change w (w.runAt g draw plan owner repo repository p).2 := by
  cases repository with
  | none => exact .other _ _ _ _ fun _ h => h
  | some r =>
    obtain ⟨hr, hP⟩ := hmem r rfl
    exact .reviews r _ _ hr (h.mono hP)

theorem repositoryWith_mem {number : ℤ} {r : Repository}
    (h : w.repositoryWith owner repo number = some r) : r ∈ w.repositories.rows :=
  (World.mem_repositoriesAt.mp (World.repositoryWith_mem h)).1

/-- A method by the author that adds no author. -/
theorem change_authored {caller : Uuid} {number : ℤ}
    (h : ∀ s : RepoState, AuthorsFrom s.reviews (run (handler g 0) p plan s).2.reviews
      fun _ => False) :
    Change w (w.authored g plan caller owner repo number p).2 := by
  unfold World.authored
  cases w.verifyAuthorizedForReview ⟨caller, owner, repo, number⟩ with
  | error e => exact .refl w
  | ok _ => exact change_runAt (fun r hr => ⟨repositoryWith_mem hr, fun _ => False.elim⟩) (h _)

/-- A push for review: the pusher has just been granted a write on the
repository the review is created in. -/
theorem change_gitReceivePack {request : ProcessReviewRequest} :
    Change w (w.gitReceivePack g draw plan request).2 := by
  unfold World.gitReceivePack
  cases hauth : w.verifyAuthorizedForRepository
      ⟨some request.pusherId, request.owner, request.repo, .write⟩ with
  | error e => exact .refl w
  | ok _ =>
    obtain ⟨r, hget, hmay⟩ := World.verifyAuthorizedForRepository_write.mp hauth
    simp only [World.processReview]
    cases request.reviewNumber with
    | none =>
      refine change_runAt (fun r' hr' => ?_) (step_createReview draw plan request).pushStep.authors
      obtain rfl := Option.some.inj (hget.symm.trans hr')
      refine ⟨(World.mem_repositoriesAt.mp (World.getRepository_mem hget)).1, ?_⟩
      rintro u ⟨-, rfl⟩
      exact hmay
    | some number =>
      refine change_authored fun s => ?_
      exact (step_processReviewUpdate plan request).pushStep.authors.mono fun _ h => h.1 rfl

/-- The reviewers of a review rewritten. -/
theorem change_setReviewers {number : ℤ} {id : Uuid} {f : List Uuid → List Uuid} :
    Change w (w.setReviewers owner repo number id f) := by
  unfold World.setReviewers
  cases hr : w.repositoryWith owner repo number with
  | none => exact .refl w
  | some r =>
    refine .reviews r _ w.disk (repositoryWith_mem hr) fun v' hv' => .inl ?_
    rcases Table.mem_modify.mp hv' with ⟨hv, -⟩ | ⟨v, hv, rfl⟩
    · exact ⟨v', hv, rfl⟩
    · exact ⟨v, Table.mem_rows_of_get? hv, rfl⟩

theorem change_addReviewReviewerHandler {caller : Uuid} {number : ℤ} {userName : String} :
    Change w (w.addReviewReviewerHandler caller owner repo number userName).2 := by
  unfold World.addReviewReviewerHandler
  cases w.verifyAuthorizedForReview ⟨caller, owner, repo, number⟩ with
  | error e => exact .refl w
  | ok _ =>
    cases w.getUser userName with
    | none => exact .refl w
    | some user =>
      cases w.getReviewByNumber owner repo number with
      | none => exact .refl w
      | some review =>
        dsimp only
        split_ifs
        · exact .refl w
        · exact .refl w
        · dsimp only
          exact change_setReviewers

theorem change_removeReviewReviewerHandler {caller : Uuid} {number : ℤ} {reviewerName : String} :
    Change w (w.removeReviewReviewerHandler caller owner repo number reviewerName).2 := by
  unfold World.removeReviewReviewerHandler
  cases w.verifyAuthorizedForReview ⟨caller, owner, repo, number⟩ with
  | error e => exact .refl w
  | ok _ =>
    cases w.getUser reviewerName with
    | none => exact .refl w
    | some user =>
      cases w.getReviewByNumber owner repo number with
      | none => exact .refl w
      | some review =>
        dsimp only
        split_ifs
        · dsimp only
          exact change_setReviewers
        · exact .refl w

/-- A call on comments writes comments and verdicts. -/
theorem execComment_keeps {draw : ℕ → Uuid} (c : CommentCall) (w : World) :
    ∃ comments verdicts, (World.execComment draw c w).2 =
      { w with comments := comments, verdicts := verdicts } := by
  cases c with
  | getReviewByNumber owner repo number => exact ⟨_, _, rfl⟩
  | getComment id => exact ⟨_, _, rfl⟩
  | createComment review diff revision author body parent place =>
    simp only [World.execComment, World.createComment]
    split_ifs
    · split
      · exact ⟨_, _, rfl⟩
      · exact ⟨_, _, rfl⟩
    · exact ⟨_, _, rfl⟩
  | updateComment id body =>
    simp only [World.execComment, World.updateComment]
    split
    · exact ⟨_, _, rfl⟩
    · exact ⟨_, _, rfl⟩
  | resolveComment id resolved => exact ⟨_, _, rfl⟩
  | createVerdict diff revision reviewer verdict => exact ⟨_, _, rfl⟩
  | touchReview id => exact ⟨_, _, rfl⟩

theorem change_guarded {α : Type} {draw : ℕ → Uuid} {authorized : Except AuthorizationError Unit}
    {p : CommentProg α} : Change w (w.guarded draw plan authorized p).2 := by
  unfold World.guarded
  cases authorized with
  | error e => exact .refl w
  | ok _ =>
    have hkeep : ∃ comments verdicts, (run (World.commentCalls draw) p plan w).2 =
        { w with comments := comments, verdicts := verdicts } := by
      refine run_keeps (P := fun w' : World => ∃ comments verdicts,
        w' = { w with comments := comments, verdicts := verdicts }) ?_ ⟨w.comments, w.verdicts, rfl⟩
      rintro c _ ⟨comments, verdicts, rfl⟩
      exact execComment_keeps c _
    obtain ⟨comments, verdicts, h⟩ := hkeep
    simp only [h]
    exact .other _ comments verdicts _ fun _ h => h

end Reviews

/-! ### Accounts and repositories -/

section Accounts

variable {id caller : Uuid} {owner repo : String}

theorem change_createUser {bytes : Fin (2 ^ 32)} : Change w (w.createUser id bytes).2 := by
  unfold World.createUser
  cases hfree : w.getUser (World.handle bytes) with
  | some user => exact .refl w
  | none =>
    dsimp only [Option.isSome_none]
    rw [if_neg Bool.false_ne_true]
    cases hins : w.users.insert? ⟨id, World.handle bytes⟩ with
    | none => exact .refl w
    | some users => exact .user id _ hfree hins

theorem change_updateCurrentUser {validName : String → Bool} {name : String} :
    Change w (w.updateCurrentUser validName caller name).2 := by
  unfold World.updateCurrentUser
  split_ifs with hvalid htaken
  · exact .refl w
  · cases w.users.get? caller with
    | none => exact .refl w
    | some user => exact .renamed caller name _ (Bool.eq_false_of_not_eq_true htaken)
  · exact .refl w

theorem change_createOrganization {validName : String → Bool} {orgName : String} :
    Change w (w.createOrganization validName id caller orgName).2 := by
  unfold World.createOrganization
  split_ifs with hvalid horg huser
  · exact .refl w
  · exact .refl w
  · cases hins : w.organizations.insert? ⟨id, orgName⟩ with
    | none => exact .refl w
    | some organizations =>
      exact .organization id caller orgName (Option.not_isSome_iff_eq_none.mp horg) hins
  · exact .refl w

theorem change_addMemberHandler {orgName userName : String} {role : OrganizationRole} :
    Change w (w.addMemberHandler caller orgName userName role).2 := by
  unfold World.addMemberHandler
  cases w.verifyAuthorizedForOrganization ⟨caller, orgName⟩ with
  | error e => exact .refl w
  | ok _ =>
    cases w.getOrganization orgName with
    | none => exact .refl w
    | some organization =>
      cases w.getUser userName with
      | none => exact .refl w
      | some user =>
        dsimp only
        split_ifs
        · exact .refl w
        · exact .other _ _ _ _ fun _ h => List.mem_cons_of_mem _ h

/-- A row that `UNIQUE(owner_id, name)` lets in. -/
theorem change_insertRepository {name : String} {ownerId : Uuid} {ownerType : RepositoryOwnerType}
    {visibility : RepositoryVisibility} {readonly : Bool} {repositories : Table Repository}
    {disk : String → String → Option Refs}
    (h : w.insertRepository id name ownerId ownerType visibility readonly = some repositories) :
    Change w { w with repositories := repositories, disk := disk } := by
  unfold World.insertRepository at h
  split_ifs at h with hany
  refine .repository ⟨id, name, ownerId, ownerType, visibility, readonly, .empty⟩ disk rfl ?_ h
  intro q hq hsame
  exact hany (List.any_eq_true.mpr ⟨q, hq, decide_eq_true hsame⟩)

theorem change_createRepositoryHandler {offensive : String → Bool} {ownerType : RepositoryOwnerType}
    {visibility : RepositoryVisibility} :
    Change w (w.createRepositoryHandler offensive id caller owner repo ownerType visibility).2 := by
  unfold World.createRepositoryHandler
  cases w.verifyAuthorizedForRepositoryCreation ⟨caller, owner, ownerType⟩ with
  | error e => exact .refl w
  | ok _ =>
    dsimp only
    split_ifs
    · exact .refl w
    · exact .refl w
    · split
      · exact .refl w
      · split
        · exact .refl w
        · rename_i hins
          exact change_insertRepository hins

theorem change_migrateSingleRepository {ownerId : Uuid} {ownerType : RepositoryOwnerType}
    {visibility : RepositoryVisibility} {readonly : Bool} {mirrored : Refs} :
    Change w (w.migrateSingleRepository id owner ownerId ownerType repo visibility readonly
      mirrored).2 := by
  unfold World.migrateSingleRepository
  split_ifs
  · exact .refl w
  · exact .refl w
  · split
    · exact .refl w
    · rename_i hins
      exact change_insertRepository hins

theorem change_updateRepositoryHandler {readonly : Option Bool} :
    Change w (w.updateRepositoryHandler caller owner repo readonly).2 := by
  unfold World.updateRepositoryHandler
  cases w.verifyAuthorizedForRepository ⟨some caller, owner, repo, .admin⟩ with
  | error e => exact .refl w
  | ok _ =>
    dsimp only
    split_ifs with hreadonly
    · exact .refl w
    · cases w.getRepository owner repo with
      | none => exact .refl w
      | some repository => exact .readonly repository.id readonly hreadonly

theorem change_deleteRepositoryHandler : Change w (w.deleteRepositoryHandler caller owner repo).2 := by
  unfold World.deleteRepositoryHandler
  cases w.verifyAuthorizedForRepository ⟨some caller, owner, repo, .admin⟩ with
  | error e => exact .refl w
  | ok _ =>
    cases w.getRepository owner repo with
    | none => exact .refl w
    | some repository =>
      dsimp only
      split_ifs
      · exact .refl w
      · exact .deleted repository.id _ _ _

end Accounts

/-- **One request.** -/
theorem change_serve {c : Setup} (e : Request) : Change w (serve c e w) := by
  cases e with
  | createUser id bytes => exact change_createUser
  | updateCurrentUser caller name => exact change_updateCurrentUser
  | createOrganization id caller orgName => exact change_createOrganization
  | addMember caller orgName userName role => exact change_addMemberHandler
  | createRepository id caller owner repo ownerType visibility =>
    exact change_createRepositoryHandler
  | migrateRepository id ownerName ownerId ownerType repoName visibility readonly mirrored =>
    exact change_migrateSingleRepository
  | updateRepository caller owner repo readonly => exact change_updateRepositoryHandler
  | deleteRepository caller owner repo => exact change_deleteRepositoryHandler
  | receivePack draw plan request => exact change_gitReceivePack
  | publishReview plan caller request =>
    exact change_authored fun _ => (of_wp wp_publishReview).authors
  | publishReviewDiff plan caller request =>
    exact change_authored fun _ => (of_wp wp_publishReviewDiff).authors
  | updateReview plan caller request =>
    exact change_authored fun _ => (of_wp wp_updateReview).authors
  | updateReviewDiff plan caller request =>
    exact change_authored fun _ => (of_wp wp_updateReviewDiff).authors
  | mergeReviewDiff plan caller request =>
    exact change_authored fun _ => (step_mergeReviewDiff plan request).mergeStep.authors
  | addReviewer caller owner repo number userName => exact change_addReviewReviewerHandler
  | removeReviewer caller owner repo number reviewerName =>
    exact change_removeReviewReviewerHandler
  | reply draw plan request => exact change_guarded
  | updateComment draw plan request => exact change_guarded
  | resolveComment draw plan request => exact change_guarded
  | reviewDiff draw plan request => exact change_guarded
  | disk disk => exact .other _ _ _ _ fun _ h => h

/-! ### What every request keeps -/

theorem Change.isMember (h : Change w w') {organization user : Uuid}
    (hm : w.isMember organization user = true) : w'.isMember organization user = true := by
  obtain ⟨m, hmem, hm⟩ := List.any_eq_true.mp hm
  refine List.any_eq_true.mpr ⟨m, ?_, hm⟩
  cases h with
  | other _ _ _ _ kept => exact kept m hmem
  | organization => exact List.mem_cons_of_mem _ hmem
  | user | renamed | repository | readonly | deleted | reviews => exact hmem

/-- Where a repository and its authors come from. -/
theorem Change.repository_from (h : Change w w') {r' : Repository}
    (hr' : r' ∈ w'.repositories.rows) : r'.reviews.rows = [] ∨
      ∃ r ∈ w.repositories.rows, r'.ownerId = r.ownerId ∧ r'.ownerType = r.ownerType ∧
        (r.readonly = false → r'.readonly = false) ∧
        AuthorsFrom r.reviews r'.reviews (w.MayPush r) := by
  have hsame : ∀ {q : Repository}, q ∈ w.repositories.rows → q.reviews.rows = [] ∨
      ∃ r ∈ w.repositories.rows, q.ownerId = r.ownerId ∧ q.ownerType = r.ownerType ∧
        (r.readonly = false → q.readonly = false) ∧
        AuthorsFrom r.reviews q.reviews (w.MayPush r) :=
    fun hq => .inr ⟨_, hq, rfl, rfl, fun hr => hr, .refl _ _⟩
  cases h with
  | other | user | renamed | organization => exact hsame hr'
  | repository r disk bare free inserted =>
    rcases (Table.mem_insert? inserted).mp hr' with rfl | hr'
    · exact .inl (by rw [bare]; rfl)
    · exact hsame hr'
  | readonly id readonly writable =>
    simp only [Table.mem_modify] at hr'
    rcases hr' with ⟨hr', -⟩ | ⟨r, hr, rfl⟩
    · exact hsame hr'
    · refine .inr ⟨r, Table.mem_rows_of_get? hr, rfl, rfl, fun hro => ?_, .refl _ _⟩
      rcases readonly with - | - | -
      · exact hro
      · rfl
      · exact absurd rfl writable
  | deleted id => exact hsame (Table.mem_erase.mp hr').1
  | reviews r reviews disk row authors =>
    simp only [World.setReviews, Table.mem_modify] at hr'
    rcases hr' with ⟨hr', -⟩ | ⟨q, hq, rfl⟩
    · exact hsame hr'
    · obtain rfl : r = q := Option.some.inj ((Table.get?_key row).symm.trans hq)
      exact .inr ⟨r, row, rfl, rfl, fun hr => hr, authors⟩

/-- Who may push still may. -/
theorem Change.mayPush (h : Change w w') {r r' : Repository} {user : Uuid}
    (hid : r'.ownerId = r.ownerId) (htype : r'.ownerType = r.ownerType)
    (hreadonly : r.readonly = false → r'.readonly = false) (hp : w.MayPush r user) :
    w'.MayPush r' user := by
  refine ⟨hreadonly hp.1, ?_⟩
  have howned : r'.isOwnedByUser = r.isOwnedByUser := by
    unfold Repository.isOwnedByUser
    rw [htype]
  have howner := hp.2
  rw [howned, hid]
  split_ifs at howner ⊢ with hu
  · exact howner
  · exact h.isMember howner

/-- Each review's author may push to its repository. -/
def AuthorsMayPush (w : World) : Prop :=
  ∀ r ∈ w.repositories.rows, ∀ v ∈ r.reviews.rows, w.MayPush r v.authorId

theorem Change.authorsMayPush (h : Change w w') (hw : AuthorsMayPush w) : AuthorsMayPush w' := by
  intro r' hr' v' hv'
  rcases h.repository_from hr' with hnone | ⟨r, hr, hid, htype, hreadonly, hauthors⟩
  · rw [hnone] at hv'
    cases hv'
  · rcases hauthors v' hv' with ⟨v, hv, heq⟩ | hp
    · rw [← heq]
      exact h.mayPush hid htype hreadonly (hw r hr v hv)
    · exact h.mayPush hid htype hreadonly hp

/-! ### Unique names -/

/-- The unique index holds after an insert that it lets in. -/
theorem unique_insert? {α β : Type} {κ : Type} [Keyed α κ] [LinearOrder κ] {t u : Table α}
    {f : α → β} {a : α} (hins : t.insert? a = some u) (hfree : ∀ b ∈ t.rows, f b ≠ f a)
    (h : ∀ b ∈ t.rows, ∀ c ∈ t.rows, f b = f c → b = c) :
    ∀ b ∈ u.rows, ∀ c ∈ u.rows, f b = f c → b = c := by
  intro b hb c hc hbc
  rcases (Table.mem_insert? hins).mp hb with rfl | hb <;>
    rcases (Table.mem_insert? hins).mp hc with rfl | hc
  · rfl
  · exact absurd hbc.symm (hfree c hc)
  · exact absurd hbc (hfree b hb)
  · exact h b hb c hc hbc

/-- Two rows of one repository are one row. -/
theorem unique_modify {t : Table Repository} {id : Uuid} {f : Repository → Repository}
    (hf : ∀ r, Keyed.key (f r) = Keyed.key r) (howner : ∀ r, (f r).ownerId = r.ownerId)
    (hname : ∀ r, (f r).name = r.name)
    (h : ∀ r ∈ t.rows, ∀ q ∈ t.rows, r.ownerId = q.ownerId → r.name = q.name → r = q) :
    ∀ r ∈ (t.modify id f hf).rows, ∀ q ∈ (t.modify id f hf).rows,
      r.ownerId = q.ownerId → r.name = q.name → r = q := by
  have hrow : ∀ r ∈ (t.modify id f hf).rows, ∃ b ∈ t.rows, r.ownerId = b.ownerId ∧
      r.name = b.name ∧ r = if b.id = id then f b else b := by
    intro r hr
    rcases Table.mem_modify.mp hr with ⟨hr, hne⟩ | ⟨b, hb, rfl⟩
    · exact ⟨r, hr, rfl, rfl, (if_neg hne).symm⟩
    · exact ⟨b, Table.mem_rows_of_get? hb, howner b, hname b, (if_pos (Table.key_of_get? hb)).symm⟩
  intro r hr q hq ho hn
  obtain ⟨b, hb, hbo, hbn, rfl⟩ := hrow r hr
  obtain ⟨c, hc, hco, hcn, rfl⟩ := hrow q hq
  rw [h b hb c hc (hbo.symm.trans (ho.trans hco)) (hbn.symm.trans (hn.trans hcn))]

theorem getUser_eq_none {name : String} (h : w.getUser name = none) {u : User}
    (hu : u ∈ w.users.rows) : u.name ≠ name :=
  fun heq => List.find?_eq_none.mp h u hu (decide_eq_true heq)

theorem getOrganization_eq_none {name : String} (h : w.getOrganization name = none)
    {o : Organization} (ho : o ∈ w.organizations.rows) : o.name ≠ name :=
  fun heq => List.find?_eq_none.mp h o ho (decide_eq_true heq)

theorem Change.unique (h : Change w w') (hw : w.Unique) : w'.Unique := by
  cases h with
  | other => exact ⟨hw.user, hw.organization, hw.repository⟩
  | user id name free inserted =>
    exact ⟨unique_insert? inserted (fun u hu => getUser_eq_none free hu) hw.user,
      hw.organization, hw.repository⟩
  | renamed caller name disk free =>
    refine ⟨?_, hw.organization, hw.repository⟩
    have hnone : w.getUser name = none := by
      unfold World.isNameTaken at free
      exact Option.not_isSome_iff_eq_none.mp fun hs => by simp [hs] at free
    intro u hu v hv huv
    simp only [Table.mem_modify] at hu hv
    rcases hu with ⟨hu, -⟩ | ⟨a, ha, rfl⟩ <;> rcases hv with ⟨hv, -⟩ | ⟨b, hb, rfl⟩
    · exact hw.user u hu v hv huv
    · exact absurd huv (getUser_eq_none hnone hu)
    · exact absurd huv.symm (getUser_eq_none hnone hv)
    · rw [Option.some.inj (ha.symm.trans hb)]
  | organization id caller name free inserted =>
    exact ⟨hw.user, unique_insert? inserted (fun o ho => getOrganization_eq_none free ho)
      hw.organization, hw.repository⟩
  | repository r disk bare free inserted =>
    refine ⟨hw.user, hw.organization, fun a ha b hb ho hn => ?_⟩
    rcases (Table.mem_insert? inserted).mp ha with rfl | ha <;>
      rcases (Table.mem_insert? inserted).mp hb with rfl | hb
    · rfl
    · exact absurd ⟨ho.symm, hn.symm⟩ (free b hb)
    · exact absurd ⟨ho, hn⟩ (free a ha)
    · exact hw.repository a ha b hb ho hn
  | readonly id readonly writable =>
    refine ⟨hw.user, hw.organization, unique_modify ?_ ?_ ?_ hw.repository⟩
    · exact fun _ => rfl
    · exact fun _ => rfl
    · exact fun _ => rfl
  | deleted id =>
    exact ⟨hw.user, hw.organization, fun a ha b hb =>
      hw.repository a (Table.mem_erase.mp ha).1 b (Table.mem_erase.mp hb).1⟩
  | reviews r reviews =>
    refine ⟨hw.user, hw.organization, unique_modify ?_ ?_ ?_ hw.repository⟩
    · exact fun _ => rfl
    · exact fun _ => rfl
    · exact fun _ => rfl

/-! ### Reachable stores -/

/-- The stores the server reaches from the empty one. -/
def Served (c : Setup) : World → Prop := Reach (· = emptyWorld) (serve c) fun _ _ => True

theorem Served.authorsMayPush {c : Setup} (h : Served c w) : AuthorsMayPush w := by
  refine h.invariant ?_ fun s e hs _ => (change_serve e).authorsMayPush hs
  rintro s rfl r hr
  cases hr

theorem Served.unique {c : Setup} (h : Served c w) : w.Unique := by
  refine h.invariant ?_ fun s e hs _ => (change_serve e).unique hs
  rintro s rfl
  exact ⟨nofun, nofun, nofun⟩

/-- **Only writers move branches.** In every store the server reaches, a
merge that returns `Ok` merges into a repository for which the caller passes
the check of a write. If no user and organization share the owner's name, the
path leads to that repository and the whole check passes. -/
theorem merge_needs_write {c : Setup} {plan : List Bool}
    {createCommits : Review → Except AppError Unit} {caller : Uuid}
    {request : MergeReviewDiffRequest} {made : Review} (hw : Served c w)
    (h : (w.mergeReviewDiffHandler c.git plan createCommits caller request).1 = .ok made) :
    ∃ repository, w.repositoryWith request.owner request.repo request.number = some repository ∧
      w.authorizeRepository repository ⟨some caller, request.owner, request.repo, .write⟩ =
        .ok () ∧
      (¬ w.SharedName request.owner →
        w.verifyAuthorizedForRepository ⟨some caller, request.owner, request.repo, .write⟩ =
          .ok ()) := by
  cases hauth : w.verifyAuthorizedForReview
      ⟨caller, request.owner, request.repo, request.number⟩ with
  | error e =>
    simp only [World.mergeReviewDiffHandler, World.authored, hauth] at h
    cases h
  | ok _ =>
    obtain ⟨review, hreview, rfl⟩ := World.verifyAuthorizedForReview_ok.mp hauth
    obtain ⟨r, hr, hnum⟩ := World.getReviewByNumber_eq_some hreview
    have hmay : w.MayPush r review.authorId := hw.authorsMayPush r (repositoryWith_mem hr) review
      (World.Repository.mem_of_getReviewByNumber hnum)
    refine ⟨r, hr, World.authorizeRepository_write.mpr hmay, fun hs => ?_⟩
    exact World.verifyAuthorizedForRepository_write.mpr
      ⟨r, hw.unique.getRepository hs (World.repositoryWith_mem hr), hmay⟩

/-! ### A merge -/

/-- The commits of the example: 2 on 1. Every name is allowed. -/
def mergeSetup : Setup where
  git := Git.ofHistory [⟨[], 0, 0⟩, ⟨[], 1, 1⟩, ⟨[1], 2, 2⟩] (by decide)
  validName _ := true
  offensive _ := false

/-- User 1 signs up, becomes `alice`, creates `alice/one` and has 2 reviewed
for its `main` at 1. -/
def reviewedStore : World :=
  play (serve mergeSetup)
    [.createUser 1 7, .updateCurrentUser 1 "alice",
      .createRepository 3 1 "alice" "one" .user .publicRepo,
      .disk fun owner repo => if owner = "alice" ∧ repo = "one" then
        some fun ref => if ref = getTargetRef "main" then some 1 else none else none,
      .receivePack 5 [] ⟨"alice", "one", "main", none, 2, 1⟩,
      .publishReviewDiff [] 1 ⟨"alice", "one", 1, 1⟩,
      .publishReview [] 1 ⟨"alice", "one", 1⟩] emptyWorld

example : (reviewedStore.getReviewByNumber "alice" "one" 1).isSome = true := by decide +kernel

/-- The merge of its diff. -/
theorem merge_needs_write_reviewedStore :
    ∃ repository, reviewedStore.repositoryWith "alice" "one" 1 = some repository ∧
      reviewedStore.authorizeRepository repository ⟨some 1, "alice", "one", .write⟩ = .ok () ∧
      (¬ reviewedStore.SharedName "alice" →
        reviewedStore.verifyAuthorizedForRepository ⟨some 1, "alice", "one", .write⟩ = .ok ()) := by
  have hserved : Served mergeSetup reviewedStore :=
    reach_play (.start rfl) (by decide)
  obtain ⟨made, hmade⟩ := exists_ok (x := (reviewedStore.mergeReviewDiffHandler mergeSetup.git []
    (fun _ => .ok ()) 1 ⟨"alice", "one", 1, 1⟩).1) (by decide +kernel)
  exact merge_needs_write hserved hmade

end Gitdot
