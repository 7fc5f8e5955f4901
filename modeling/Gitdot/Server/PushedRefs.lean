/-
# The review a pushed ref names

A push to `refs/for/<branch>/<number>` updates a review. `parseRef` splits the
name at its last slash and reads the number as an `i64`, with a sign or zeros in
front as `str::parse` does (`parseRef_eq_some_iff`). From there on the number
is cast to an `i32`, in the handler and once more in the service, and the
branch is not compared with that of the review. So the review that is
authorized and updated is the one under the low 32 bits of the number
(`reviews_processReview`), whatever branch it is for.

Key definitions: `parseRef`, `World.processReviewHandler`, `World.Authorizes`,
`World.ChangesOnly`.
Key theorems: `parseRef_eq_some_iff`, `processReview_changes`,
`pushed_ref_names_review`.
-/
import Gitdot.Auth.Bearer
import Gitdot.Lib.Text
import Gitdot.Server.Run

namespace Gitdot

open Lib Lib.Text Prog

/-! ### The name of the ref -/

def magicRefPrefix : String := "refs/for"

def invalidReviewRef (refName : String) : ReviewError :=
  .input "ref name" s!"invalid review ref: {refName}"

/-- `parse_ref`: the target branch, and the review number if there is one. -/
def parseRef (refName : String) : Except ReviewError (String × Option ℤ) :=
  match ((stripPrefix magicRefPrefix refName).bind (stripPrefix "/")).filter (· ≠ "") with
  | none => .error (invalidReviewRef refName)
  | some rest =>
    match rsplitOnce '/' rest.toList with
    | none => .ok (rest, none)
    | some (branch, number) =>
      match parseI64 number with
      | none => .ok (rest, none)
      | some n =>
        if branch = [] then .error (invalidReviewRef refName)
        else .ok (String.ofList branch, some n)

/-- `ProcessReviewRequest::new`, the names of owner and repository being parsed. -/
def ProcessReviewRequest.new (owner repo refName : String) (newSha : Sha) (pusherId : Uuid) :
    Except ReviewError ProcessReviewRequest :=
  (parseRef refName).map fun x => ⟨owner, repo, x.1, x.2, newSha, pusherId⟩

theorem isDigit_of_parseDigits {cs : List Char} {n : ℕ} (h : parseDigits cs = some n) :
    ∀ c ∈ cs, c.isDigit := by
  unfold parseDigits at h
  split_ifs at h with hall
  exact List.all_eq_true.mp hall.2

/-- Digits and a sign are all there is in a number. -/
theorem not_mem_of_parseI64 {cs : List Char} {n : ℤ} (h : parseI64 cs = some n) {c : Char}
    (hc : ¬ c.isDigit) (hplus : c ≠ '+') (hminus : c ≠ '-') : c ∉ cs := by
  have hdigits : ∀ {ds : List Char} {m : ℕ}, parseDigits ds = some m → c ∉ ds := fun hd hmem =>
    hc (isDigit_of_parseDigits hd _ hmem)
  unfold parseI64 at h
  split at h
  · obtain ⟨m, hm, -⟩ := Option.bind_eq_some_iff.mp h
    exact List.not_mem_cons_of_ne_of_not_mem hplus (hdigits hm)
  · obtain ⟨m, hm, -⟩ := Option.bind_eq_some_iff.mp h
    exact List.not_mem_cons_of_ne_of_not_mem hminus (hdigits hm)
  · obtain ⟨m, hm, -⟩ := Option.bind_eq_some_iff.mp h
    exact hdigits hm

/-- A number has no slash. -/
theorem slash_not_mem_of_parseI64 {cs : List Char} {n : ℤ} (h : parseI64 cs = some n) : '/' ∉ cs :=
  not_mem_of_parseI64 h (by decide) (by decide) (by decide)

/-- **The names with a number.** A branch, a slash, and what reads as an `i64`. -/
theorem parseRef_eq_some_iff {refName branch : String} {n : ℤ} :
    parseRef refName = .ok (branch, some n) ↔ branch ≠ "" ∧ ∃ numeral : String,
      refName = magicRefPrefix ++ ("/" ++ (branch ++ "/" ++ numeral)) ∧
        parseI64 numeral.toList = some n := by
  constructor
  · intro h
    unfold parseRef at h
    split at h
    · cases h
    · next rest hrest =>
      obtain ⟨hstrip, -⟩ := Option.filter_eq_some_iff.mp hrest
      obtain ⟨tail, htail, hslash⟩ := Option.bind_eq_some_iff.mp hstrip
      split at h
      · cases h
      · next front number hsplit =>
        split at h
        · cases h
        · next m hm =>
          split_ifs at h with hnil
          obtain ⟨rfl, hmn⟩ := Prod.mk.inj (Except.ok.inj h)
          obtain rfl := Option.some.inj hmn
          refine ⟨fun hempty => hnil (String.ofList_eq_empty_iff.mp hempty), String.ofList number, ?_,
            by rwa [String.toList_ofList]⟩
          have hform : rest = String.ofList front ++ "/" ++ String.ofList number := by
            rw [← String.toList_inj, (rsplitOnce_eq_some.mp hsplit).1, String.toList_append,
              String.toList_append, String.toList_ofList, String.toList_ofList]
            simp
          rw [stripPrefix_eq_some.mp htail, stripPrefix_eq_some.mp hslash, hform]
  · rintro ⟨hbranch, numeral, rfl, hn⟩
    have hsplit : rsplitOnce '/' (branch ++ "/" ++ numeral).toList =
        some (branch.toList, numeral.toList) := by
      rw [rsplitOnce_eq_some]
      refine ⟨?_, slash_not_mem_of_parseI64 hn⟩
      simp [String.toList_append]
    have hne : branch ++ "/" ++ numeral ≠ "" := by
      intro h
      have := congrArg String.toList h
      simp [String.toList_append] at this
    have hbranch' : branch.toList ≠ [] := fun h => hbranch (String.toList_eq_nil_iff.mp h)
    unfold parseRef
    rw [stripPrefix_eq_some.mpr rfl, Option.bind_some, stripPrefix_eq_some.mpr rfl]
    simp only [Option.filter_some, hne, ne_eq, not_false_eq_true, decide_true, if_true, hsplit, hn,
      if_neg hbranch', String.ofList_toList]

/-- So `refs/for/<branch>/<number>` names the review of that number. -/
theorem parseRef_number {branch : String} {n : ℤ} (hbranch : branch ≠ "") (hn : IsI64 n) :
    parseRef (magicRefPrefix ++ ("/" ++ (branch ++ "/" ++ toString n))) = .ok (branch, some n) :=
  parseRef_eq_some_iff.mpr ⟨hbranch, toString n, rfl, parseI64_toString hn⟩

/-! ### The handler -/

namespace World

/-- The handler `process_review` on a ref that is pushed. -/
def processReviewHandler (w : World) (g : Git) (draw : Uuid) (plan : List Bool)
    (owner repo refName : String) (newSha : Sha) (pusherId : Uuid) : Except AppError Review × World :=
  match ProcessReviewRequest.new owner repo refName newSha pusherId with
  | .error e => (.error (.review e), w)
  | .ok request => w.processReview g draw plan request

/-- The review that `verify_authorized_for_review` lets through for a request. -/
def Authorizes (w : World) (request : ProcessReviewRequest) (review : Review) : Prop :=
  ∃ number, request.reviewNumber = some number ∧
    w.verifyAuthorizedForReview ⟨request.pusherId, request.owner, request.repo, asI32 number⟩ = .ok () ∧
    w.getReviewByNumber request.owner request.repo (asI32 number) = some review

/-- A row of `core.reviews`, with its diffs, by its repository and its id. -/
def review? (w : World) (repository id : Uuid) : Option Review :=
  (w.repositories.get? repository).bind fun r => r.reviews.get? id

/-- What has changed are only reviews at the path that satisfy `P`. -/
def ChangesOnly (w w' : World) (owner repo : String) (P : Review → Prop) : Prop :=
  ∀ repository id, w'.review? repository id ≠ w.review? repository id →
    ∃ r review, w.repositories.get? repository = some r ∧ r ∈ w.repositoriesAt owner repo ∧
      w.review? repository id = some review ∧ P review

end World

section Changes

variable {g : Git} {draw : Uuid} {plan : List Bool}

/-- An update changes the review of its number, and no other. -/
theorem reviews_processReviewUpdate {s : RepoState} {request : ProcessReviewRequest} {id : Uuid}
    (h : (call g plan (processReviewUpdate request) s).2.reviews.get? id ≠ s.reviews.get? id) :
    ∃ number review, request.number? = .ok number ∧ s.getReviewByNumber number = some review ∧
      review.id = id := by
  have hstep := (step_processReviewUpdate (g := g) (s := s) plan request).pushStep
  generalize (call g plan (processReviewUpdate request) s).2 = s' at h hstep
  cases hstep with
  | nothing => exact absurd rfl h
  | partly hbase hpart =>
    cases hbase with
    | update hi =>
      refine ⟨_, _, hi.number_eq, hi.found, ?_⟩
      by_contra hid
      rw [RepoState.get?_put, if_neg fun heq => hid (hpart.id_eq.symm.trans heq.symm)] at h
      exact h rfl
  | through hbase hall =>
    cases hbase with
    | update hi =>
      refine ⟨_, _, hi.number_eq, hi.found, ?_⟩
      by_contra hid
      rw [RepoState.get?_put, if_neg fun heq =>
        hid ((Focus.pushAll_partly hall).id_eq.symm.trans heq.symm)] at h
      exact h rfl

variable {w : World} {owner repo : String}

/-- What a method run at a path changes is what it changes in the repository. -/
theorem review?_runAt {repository : Option Repository} {p : ReviewProg Review} {k id : Uuid}
    (hrow : ∀ r, repository = some r → w.repositories.get? r.id = some r)
    (h : (w.runAt g draw plan owner repo repository p).2.review? k id ≠ w.review? k id) :
    ∃ r, repository = some r ∧ r.id = k ∧
      (run (handler g draw) p plan (w.view owner repo repository)).2.reviews.get? id ≠
        (w.view owner repo repository).reviews.get? id := by
  cases repository with
  | none => exact absurd rfl h
  | some r =>
    have hget := hrow r rfl
    simp only [World.runAt, World.putView, World.review?, Option.elim_some, World.setReviews,
      Table.get?_modify] at h
    by_cases hk : k = r.id
    · subst hk
      rw [if_pos rfl, hget] at h
      exact ⟨r, rfl, rfl, h⟩
    · rw [if_neg hk] at h
      exact absurd rfl h

theorem get?_of_repositoryWith {number : ℤ} {r : Repository}
    (h : w.repositoryWith owner repo number = some r) : w.repositories.get? r.id = some r :=
  Table.get?_key (World.mem_repositoriesAt.mp (World.repositoryWith_mem h)).1

/-- **What the handler changes.** Of the repositories at the path, the review
that it has authorized. -/
theorem processReview_changes {request : ProcessReviewRequest} {number : ℤ}
    (hnumber : request.reviewNumber = some number) :
    w.ChangesOnly (w.processReview g draw plan request).2 request.owner request.repo
      (w.Authorizes request) := by
  intro k id h
  have hnum : request.number? = .ok (asI32 number) := by
    rw [ProcessReviewRequest.number?, hnumber]
  simp only [World.processReview, hnumber, World.authored] at h
  cases hauth : w.verifyAuthorizedForReview
      ⟨request.pusherId, request.owner, request.repo, asI32 number⟩ with
  | error e =>
    rw [hauth] at h
    exact absurd rfl h
  | ok u =>
    rw [hauth] at h
    obtain ⟨r, hat, rfl, hchanged⟩ := review?_runAt (fun r hr => get?_of_repositoryWith hr) h
    obtain ⟨number', review, hnum', hfound, rfl⟩ := reviews_processReviewUpdate hchanged
    obtain rfl := Except.ok.inj (hnum.symm.trans hnum')
    have hrow := get?_of_repositoryWith hat
    have hreview : w.getReviewByNumber request.owner request.repo (asI32 number) = some review := by
      rw [World.getReviewByNumber, hat]
      rw [hat] at hfound
      exact hfound
    refine ⟨r, review, hrow, World.repositoryWith_mem hat, ?_, number, hnumber, hauth, hreview⟩
    rw [World.review?, hrow]
    rw [hat] at hfound
    exact (RepoState.mem_of_getReviewByNumber hfound).1

/-- What the cast keeps. -/
theorem asI32_eq_self {n : ℤ} : asI32 n = n ↔ -2 ^ 31 ≤ n ∧ n < 2 ^ 31 := by
  have hpow : ((2 ^ 32 : ℕ) : ℤ) = 4294967296 := rfl
  unfold asI32 Int.bmod
  dsimp only
  rw [hpow]
  split_ifs <;> omega

/-- **The review a ref names.** The handler acts on the review of the number
and the branch of the ref if the number fits into an `i32` and the review it
finds there, if it is the pusher's, is for that branch. -/
theorem pushed_ref_names_review (w : World) (owner repo refName branch : String) (n : ℤ) (newSha : Sha)
    (pusherId : Uuid) (h : parseRef refName = .ok (branch, some n)) :
    (∃ numeral : String, refName = magicRefPrefix ++ ("/" ++ (branch ++ "/" ++ numeral)) ∧
      parseI64 numeral.toList = some n) ∧
    (((∀ request review, ProcessReviewRequest.new owner repo refName newSha pusherId = .ok request →
        w.Authorizes request review → review.number = n ∧ review.targetBranch = branch) ∧
      ∀ g draw plan, w.ChangesOnly
        (w.processReviewHandler g draw plan owner repo refName newSha pusherId).2 owner repo
        fun review => review.number = n ∧ review.targetBranch = branch) ↔
    ∀ review, w.getReviewByNumber owner repo (asI32 n) = some review → review.authorId = pusherId →
      (-2 ^ 31 ≤ n ∧ n < 2 ^ 31) ∧ review.targetBranch = branch) := by
  have hnew : ProcessReviewRequest.new owner repo refName newSha pusherId =
      .ok ⟨owner, repo, branch, some n, newSha, pusherId⟩ := by
    rw [ProcessReviewRequest.new, h]
    rfl
  have hnumber : ∀ review, w.getReviewByNumber owner repo (asI32 n) = some review →
      review.number = asI32 n := by
    intro review hreview
    obtain ⟨r, -, hfound⟩ := World.getReviewByNumber_eq_some hreview
    unfold Repository.getReviewByNumber at hfound
    have hmatch := List.find?_some hfound
    exact of_decide_eq_true hmatch
  refine ⟨(parseRef_eq_some_iff.mp h).2, ?_, ?_⟩
  · rintro ⟨hauth, -⟩ review hreview hauthor
    obtain ⟨hn, hbranch⟩ := hauth _ review hnew ⟨n, rfl,
      World.verifyAuthorizedForReview_ok.mpr ⟨review, hreview, hauthor⟩, hreview⟩
    exact ⟨asI32_eq_self.mp ((hnumber review hreview).symm.trans hn), hbranch⟩
  · intro hfit
    have hauth : ∀ review, w.Authorizes ⟨owner, repo, branch, some n, newSha, pusherId⟩ review →
        review.number = n ∧ review.targetBranch = branch := by
      rintro review ⟨number, hnum, hverify, hreview⟩
      obtain rfl := Option.some.inj hnum
      obtain ⟨review', hreview', hauthor⟩ := World.verifyAuthorizedForReview_ok.mp hverify
      obtain rfl := Option.some.inj (hreview.symm.trans hreview')
      obtain ⟨hn, hbranch⟩ := hfit review hreview hauthor
      exact ⟨(hnumber review hreview).trans (asI32_eq_self.mpr hn), hbranch⟩
    refine ⟨fun request review hrequest => ?_, fun g draw plan k id hchanged => ?_⟩
    · obtain rfl := Except.ok.inj (hnew.symm.trans hrequest)
      exact hauth review
    · rw [World.processReviewHandler, hnew] at hchanged
      obtain ⟨r, review, hr, hat, hreview, hthis⟩ := processReview_changes rfl k id hchanged
      exact ⟨r, review, hr, hat, hreview, hauth review hthis⟩

end Changes

/-! ### A review for `main`, and a push with its number modulo `2 ^ 32` -/

/-- A review of commit 2 on the root 1. -/
def refSetup : Setup where
  git := .stack 2
  validName _ := true
  offensive _ := false

/-- The repository has the branches `main` and `dev`. -/
def refStore : World :=
  play (serve refSetup)
    [.createUser 1 7, .updateCurrentUser 1 "alice",
      .createRepository 3 1 "alice" "one" .user .publicRepo,
      .disk fun owner repo => if owner = "alice" ∧ repo = "one" then
        some fun ref => if ref = getTargetRef "main" ∨ ref = getTargetRef "dev" then some 1 else none
        else none,
      .receivePack 5 [] ⟨"alice", "one", "main", none, 2, 1⟩] emptyWorld

theorem pushed_ref_names_review_refStore :
    refStore.ChangesOnly (refStore.processReviewHandler refSetup.git 0 [] "alice" "one"
      "refs/for/main/1" 3 1).2 "alice" "one"
      fun review => review.number = 1 ∧ review.targetBranch = "main" :=
  ((pushed_ref_names_review refStore "alice" "one" "refs/for/main/1" "main" 1 3 1
    (by decide +kernel)).2.mpr (by decide +kernel)).2 refSetup.git 0 []

/-- Review 1 is changed by a push for 4294967297, and by one for `dev`. -/
theorem not_pushed_ref_names_review :
    (parseRef "refs/for/main/4294967297" = .ok ("main", some 4294967297) ∧
      ¬ refStore.ChangesOnly (refStore.processReviewHandler refSetup.git 0 [] "alice" "one"
        "refs/for/main/4294967297" 3 1).2 "alice" "one"
        fun review => review.number = 4294967297 ∧ review.targetBranch = "main") ∧
    (parseRef "refs/for/dev/1" = .ok ("dev", some 1) ∧
      ¬ refStore.ChangesOnly (refStore.processReviewHandler refSetup.git 0 [] "alice" "one"
        "refs/for/dev/1" 3 1).2 "alice" "one"
        fun review => review.number = 1 ∧ review.targetBranch = "dev") := by
  have hnumber : (refStore.review? 3 5).map Review.number = some 1 := by decide +kernel
  have hbranch : (refStore.review? 3 5).map Review.targetBranch = some "main" := by decide +kernel
  refine ⟨⟨by decide +kernel, fun h => ?_⟩, by decide +kernel, fun h => ?_⟩
  · obtain ⟨r, review, -, -, hreview, hn, -⟩ := h 3 5 (by decide +kernel)
    rw [hreview, Option.map_some, hn] at hnumber
    exact absurd hnumber (by decide)
  · obtain ⟨r, review, -, -, hreview, -, hb⟩ := h 3 5 (by decide +kernel)
    rw [hreview, Option.map_some, hb] at hbranch
    exact absurd hbranch (by decide)

end Gitdot
