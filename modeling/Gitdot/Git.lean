/-
# The git client

What the review service asks of a repository's objects and refs. An object
id names its content for good, so the commits are a fixed graph (`Git`), and
what changes in a repository is where its refs point. Walking the graph and
merging trees is libgit2's; `Git` states what its answers are, and the
methods of the client are defined over it: `revList`, `cherryPickCommit`.

`Git.ofHistory` is a repository given by the list of its commits, for running
the model.

Key definitions: `Git`, `Git.revList`, `Git.cherryPickCommit`, `RefName`,
`Git.ofHistory`.
Key theorems: `Git.mem_revList`, `Git.parents_of_cherryPick`.
-/
import Gitdot.Lib.Dag
import Mathlib.Data.List.GetD

namespace Gitdot

open Lib

/-- A git object id; its text is 40 hexadecimal digits. -/
abbrev Sha := ℕ

/-- `GitError`, with the messages as the source writes them or libgit2 does. -/
inductive GitError where
  | notFound (message : String)
  | mergeConflict (message : String)
  | git2Error (message : String)
  deriving DecidableEq

/-- What `rev_list` returns of a commit. -/
structure Commit where
  sha : Sha
  message : String
  deriving DecidableEq

/-- The objects of a repository and what libgit2 computes from them.
`revwalk new hide` is the walk from `new` that hides what is reachable from
`hide`, in `Sort::TIME` order: latest commit time first, the order of equal
times left open. `cherrypick c p` merges `c` onto `p` and commits the tree
over the single parent `p`, unless the merge has conflicts (`none`) or
libgit2 refuses it. `patchId` is the hash of a commit's diff to its first
parent. -/
structure Git where
  parents : Sha → List Sha
  time : Sha → ℤ
  message : Sha → String
  patchId : Sha → ℕ
  revwalk : Sha → Option Sha → List Sha
  cherrypick : Sha → Sha → Except String (Option Sha)
  mem_revwalk : ∀ new hide c, c ∈ revwalk new hide ↔
    Anc parents c new ∧ ∀ old, hide = some old → ¬ Anc parents c old
  revwalk_nodup : ∀ new hide, (revwalk new hide).Nodup
  revwalk_sorted : ∀ new hide, (revwalk new hide).Pairwise fun a b => time b ≤ time a
  cherrypick_parents : ∀ c p n, cherrypick c p = .ok (some n) → parents n = [p]

namespace Git

variable (g : Git)

/-- `a` is an ancestor of `b`, or `b` itself. -/
abbrev Anc (a b : Sha) : Prop := Lib.Anc g.parents a b

/-- `rev_list`: the commits reachable from `new` and, unless `old` is the zero
id of an initial push, not from `old`, latest first. -/
def revList (old new : Sha) : List Commit :=
  (g.revwalk new (if old = 0 then none else some old)).map fun c => ⟨c, g.message c⟩

/-- `cherry_pick_commit`. -/
def cherryPickCommit (commit newParent : Sha) : Except GitError Sha :=
  match g.cherrypick commit newParent with
  | .ok (some new) => .ok new
  | .ok none => .error (.mergeConflict s!"conflict when rebasing commit {commit}")
  | .error message => .error (.git2Error message)

variable {g}

/-- `rev_list(old, new)` lists what is reachable from `new` and not from
`old`. -/
theorem mem_revList {old new : Sha} {c : Commit} (hold : old ≠ 0) :
    c ∈ g.revList old new ↔
      g.Anc c.sha new ∧ ¬ g.Anc c.sha old ∧ c.message = g.message c.sha := by
  simp only [revList, if_neg hold, List.mem_map, g.mem_revwalk, Option.some.injEq, forall_eq']
  constructor
  · rintro ⟨a, ⟨h1, h2⟩, rfl⟩
    exact ⟨h1, h2, rfl⟩
  · rintro ⟨h1, h2, h3⟩
    exact ⟨c.sha, ⟨h1, h2⟩, by rw [← h3]⟩

theorem parents_of_cherryPick {c p n : Sha} (h : g.cherryPickCommit c p = .ok n) :
    g.parents n = [p] := by
  unfold cherryPickCommit at h
  split at h
  · next hn =>
    cases h
    exact g.cherrypick_parents _ _ _ hn
  · cases h
  · cases h

/-- A cherry-picked commit descends from the commit it was picked onto. -/
theorem anc_of_cherryPick {c p n : Sha} (h : g.cherryPickCommit c p = .ok n) : g.Anc p n :=
  .of_parent (by simp [parents_of_cherryPick h])

end Git

/-! ### Refs -/

/-- The refs the review service reads and writes. The text of a review's refs
starts with the first eight digits of its id (`id`), not with its number. -/
inductive RefName where
  | heads (branch : String)
  | reviewHead (id : ℕ)
  | revision (id : ℕ) (position number : ℤ)
  | current (id : ℕ) (position : ℤ)
  deriving DecidableEq

/-- `refs/heads/<branch>`. -/
def getTargetRef (branch : String) : RefName := .heads branch

/-- `refs/reviews/<id>/head`. -/
def getHeadRef (reviewId : ℕ) : RefName := .reviewHead reviewId

/-- `refs/reviews/<id>/diffs/<position>/revisions/<number>`. -/
def getRevisionRef (reviewId : ℕ) (diffPosition revisionNumber : ℤ) : RefName :=
  .revision reviewId diffPosition revisionNumber

/-- `refs/reviews/<id>/diffs/<position>/current`. -/
def getCurrentRef (reviewId : ℕ) (diffPosition : ℤ) : RefName := .current reviewId diffPosition

/-- Where each ref of a repository points. -/
abbrev Refs := RefName → Option Sha

/-- The refs after `name` was pointed at `sha`. -/
def Refs.set (refs : Refs) (name : RefName) (sha : Sha) : Refs :=
  fun n => if n = name then some sha else refs n

@[simp] theorem Refs.set_self (refs : Refs) (name : RefName) (sha : Sha) :
    refs.set name sha name = some sha := if_pos rfl

theorem Refs.set_of_ne (refs : Refs) {name n : RefName} (sha : Sha) (h : n ≠ name) :
    refs.set name sha n = refs n := if_neg h

/-! ### A repository given by its commits -/

/-- A commit of a listed history. -/
structure HistoryCommit where
  parents : List Sha
  time : ℤ
  patch : ℕ
  deriving DecidableEq

/-- The commit `n` of a history; `0` is the zero id, past the end there is
no commit. -/
def historyAt (history : List HistoryCommit) (n : Sha) : HistoryCommit := history.getD n ⟨[], 0, 0⟩

/-- Every commit comes after its parents. -/
def TopologicalOrder (history : List HistoryCommit) : Prop :=
  ∀ n (h : n < history.length), ∀ p ∈ history[n].parents, p < n

instance (history : List HistoryCommit) : Decidable (TopologicalOrder history) :=
  inferInstanceAs (Decidable (∀ n (h : n < history.length), ∀ p ∈ history[n].parents, p < n))

theorem TopologicalOrder.parents_lt {history : List HistoryCommit} (h : TopologicalOrder history)
    (n : Sha) : ∀ p ∈ (historyAt history n).parents, p < n := by
  intro p hp
  unfold historyAt at hp
  by_cases hn : n < history.length
  · rw [List.getD_eq_getElem _ _ hn] at hp
    exact h n hn p hp
  · rw [List.getD_eq_default _ _ (Nat.le_of_not_lt hn)] at hp
    cases hp

/-- The repository whose commits are listed, parents first: commit `n` is the
list's element `n`. Picking `c` onto `p` finds the listed commit with `c`'s
change over the single parent `p`, and conflicts if there is none. -/
def Git.ofHistory (history : List HistoryCommit) (h : TopologicalOrder history) : Git where
  parents n := (historyAt history n).parents
  time n := (historyAt history n).time
  message _ := ""
  patchId n := (historyAt history n).patch
  revwalk := rangeOf (fun n => (historyAt history n).parents) fun n => (historyAt history n).time
  cherrypick c p := .ok ((List.range history.length).find? fun n =>
    decide ((historyAt history n).parents = [p] ∧
      (historyAt history n).patch = (historyAt history c).patch))
  mem_revwalk _ _ _ := mem_rangeOf h.parents_lt
  revwalk_nodup := nodup_rangeOf
  revwalk_sorted := sorted_rangeOf
  cherrypick_parents c p n hn := by
    have := List.find?_some (Except.ok.inj hn)
    exact (of_decide_eq_true this).1

/-- The root 1 and `n` commits on it, one after the other. -/
def stackHistory (n : ℕ) : List HistoryCommit :=
  ⟨[], 0, 0⟩ :: ⟨[], 1, 1⟩ :: (List.range n).map fun k => ⟨[k + 1], k + 2, k + 2⟩

theorem topologicalOrder_stackHistory (n : ℕ) : TopologicalOrder (stackHistory n) := by
  intro i hi p hp
  match i with
  | 0 => cases hp
  | 1 => cases hp
  | i + 2 =>
    obtain rfl : p = i + 1 := by simpa [stackHistory] using hp
    exact Nat.lt_succ_self _

def Git.stack (n : ℕ) : Git := Git.ofHistory (stackHistory n) (topologicalOrder_stackHistory n)

/-- Ancestry in a listed history is computed. -/
theorem Git.anc_ofHistory {history : List HistoryCommit} {h : TopologicalOrder history} {a b : Sha} :
    (Git.ofHistory history h).Anc a b ↔
      isAnc (fun n => (historyAt history n).parents) b a b = true :=
  (isAnc_iff h.parents_lt).symm

instance {history : List HistoryCommit} {h : TopologicalOrder history} (a b : Sha) :
    Decidable ((Git.ofHistory history h).Anc a b) :=
  decidable_of_iff' _ Git.anc_ofHistory

end Gitdot
