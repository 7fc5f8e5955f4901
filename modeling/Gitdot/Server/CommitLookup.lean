/-
# Commits by their sha

`get_commit` cuts the sha it is asked for after seven bytes and looks for the
commits of the repository whose first seven characters are the cut (`sha_short`).
The cut panics inside a character, and what the query finds need not be the
commit that was asked for: it is any commit with the same first seven
characters.

So a lookup is sound, whatever row the query meets first, exactly if the cut is
not inside a character, all commits with these characters begin with what was
asked for, and if that is a whole sha they are this one commit
(`lookup_sound_iff`).

Key definitions: `StoredCommit`, `CommitTable`, `shortSha`, `getCommit`,
`getRepositoryCommit`, `LookupSound`, `Resolves`.
Key theorems: `lookup_sound_iff`, `resolves_ascii_iff`.
-/
import Gitdot.Lib.Text
import Gitdot.Server.Listings

namespace Gitdot
namespace Lookup

open Lib Text Listings
open Auth (Time)
open String (utf8Len)

/-- A row of `core.commits`, with its shas as text. -/
structure StoredCommit where
  id : Uuid
  repoId : Uuid
  authorId : Option Uuid
  gitAuthorName : String
  gitAuthorEmail : String
  refName : String
  sha : String
  parentSha : String
  message : String
  createdAt : Time
  reviewNumber : Option ℤ
  diffPosition : Option ℤ
  diffs : List CommitDiff
  deriving DecidableEq

/-- `sha_short`: `substring(sha FROM 1 FOR 7)`. -/
def StoredCommit.shaShort (c : StoredCommit) : List Char := c.sha.toList.take 7

/-- `core.commits`: `UNIQUE (repo_id, sha)`. -/
structure CommitTable where
  rows : List StoredCommit
  unique : rows.Pairwise fun a b => ¬ (a.repoId = b.repoId ∧ a.sha = b.sha)

/-- `GetRepositoryCommitRequest`. -/
structure GetRepositoryCommitRequest where
  owner : String
  repo : String
  sha : String
  deriving DecidableEq

structure NotFoundError where
  entity : String
  id : String
  deriving DecidableEq

/-- The first seven bytes, `none` where the cut panics. -/
def shortSha (sha : String) : Option (List Char) :=
  if 7 ≤ utf8Len sha.toList then (splitAt 7 sha.toList).map Prod.fst else some sha.toList

/-- `get_commit`, on rows that the query meets in this order. -/
def getCommit (order : List StoredCommit) (repoId : Uuid) (sha : String) :
    Option (Option StoredCommit) :=
  (shortSha sha).map fun short => order.find? fun c => c.repoId = repoId ∧ c.shaShort = short

/-- `get_repository_commit`, `none` where it panics. -/
def getRepositoryCommit (w : World) (order : List StoredCommit) (request : GetRepositoryCommitRequest) :
    Option (Except NotFoundError StoredCommit) :=
  match w.getRepository request.owner request.repo with
  | none => some (.error ⟨"repository", s!"{request.owner}/{request.repo}"⟩)
  | some repository => (getCommit order repository.id request.sha).map fun commit =>
      okOr commit ⟨"commit", request.sha⟩

/-! ### Sound lookups -/

/-- Whatever order the rows are met in, the lookup does not panic, a commit that it
returns begins with what was asked for, and if that is the sha of a commit this
is what it returns. -/
def LookupSound (w : World) (t : CommitTable) (request : GetRepositoryCommitRequest) : Prop :=
  ∀ order : List StoredCommit, order.Perm t.rows →
    ∃ answer, getRepositoryCommit w order request = some answer ∧
      (∀ c, answer = .ok c → request.sha.toList <+: c.sha.toList) ∧
      ∀ repository ∈ w.getRepository request.owner request.repo, ∀ c ∈ t.rows,
        c.repoId = repository.id → c.sha = request.sha → answer = .ok c

/-- The cut is not inside a character; the commits with these first characters
begin with what was asked for; and if one is it, it has these first characters
and no other commit has. -/
def Resolves (t : CommitTable) (repoId : Uuid) (sha : String) : Prop :=
  (utf8Len sha.toList < 7 ∨ IsCharBoundary sha.toList 7) ∧
    ∀ short ∈ shortSha sha, (∀ c ∈ t.rows, c.repoId = repoId → c.shaShort = short →
        sha.toList <+: c.sha.toList) ∧
      ∀ c ∈ t.rows, c.repoId = repoId → c.sha = sha → c.shaShort = short ∧
        ∀ d ∈ t.rows, d.repoId = repoId → d.shaShort = short → d = c

section Lookup

variable {w : World} {t : CommitTable} {request : GetRepositoryCommitRequest} {repoId : Uuid}
  {sha : String} {short : List Char} {order : List StoredCommit} {c : StoredCommit}

theorem isSome_shortSha :
    (shortSha sha).isSome ↔ utf8Len sha.toList < 7 ∨ IsCharBoundary sha.toList 7 := by
  unfold shortSha
  split_ifs with hlen
  · rw [Option.isSome_map, isSome_splitAt]
    exact (or_iff_right (Nat.not_lt.mpr hlen)).symm
  · exact iff_of_true rfl (.inl (Nat.lt_of_not_le hlen))

theorem find?_match
    (h : order.find? (fun c => decide (c.repoId = repoId ∧ c.shaShort = short)) = some c) :
    c ∈ order ∧ c.repoId = repoId ∧ c.shaShort = short := by
  have hkeys := List.find?_some h
  exact ⟨List.mem_of_find?_eq_some h, of_decide_eq_true hkeys⟩

/-- Each row is met first in some order. -/
theorem exists_order_first (hc : c ∈ t.rows) :
    ∃ order : List StoredCommit, (c :: order).Perm t.rows :=
  ⟨t.rows.erase c, (List.perm_cons_erase hc).symm⟩

/-- A row with these first characters is what a lookup returns that meets it first. -/
theorem getCommit_first (hshort : shortSha sha = some short) (hrepo : c.repoId = repoId)
    (hc : c.shaShort = short) : getCommit (c :: order) repoId sha = some (some c) := by
  unfold getCommit
  rw [hshort, Option.map_some, List.find?_cons_of_pos (by simp [hrepo, hc])]

/-- The lookup that meets a row with these first characters first. -/
theorem first_of_sound {r : Repository} (hw : w.getRepository request.owner request.repo = some r)
    (hsound : LookupSound w t request) (hshort : shortSha request.sha = some short) {d : StoredCommit}
    (hd : d ∈ t.rows) (hrepo : d.repoId = r.id) (hdshort : d.shaShort = short) :
    request.sha.toList <+: d.sha.toList ∧
      ∀ c ∈ t.rows, c.repoId = r.id → c.sha = request.sha → d = c := by
  obtain ⟨order, horder⟩ := exists_order_first hd
  obtain ⟨answer, hanswer, hbegins, hfull⟩ := hsound _ horder
  simp only [getRepositoryCommit, hw, getCommit_first hshort hrepo hdshort, Option.map_some,
    okOr] at hanswer
  obtain rfl := Option.some.inj hanswer
  exact ⟨hbegins d rfl, fun c hc hcrepo hsha => Except.ok.inj (hfull r hw c hc hcrepo hsha)⟩

/-- A lookup in the order of the table. -/
theorem answer_of_sound {r : Repository} (hw : w.getRepository request.owner request.repo = some r)
    (hsound : LookupSound w t request) : ∃ short, shortSha request.sha = some short ∧
      ∀ c ∈ t.rows, c.repoId = r.id → c.sha = request.sha → c.shaShort = short := by
  obtain ⟨answer, hanswer, -, hfull⟩ := hsound t.rows (.refl _)
  unfold getRepositoryCommit at hanswer
  rw [hw] at hanswer
  obtain ⟨commit, hcommit, hok⟩ := Option.map_eq_some_iff.mp hanswer
  obtain ⟨short, hshort, hfind⟩ := Option.map_eq_some_iff.mp hcommit
  refine ⟨short, hshort, fun c hc hrepo hsha => ?_⟩
  obtain rfl := hfull r hw c hc hrepo hsha
  rw [okOr_eq_ok] at hok
  rw [hok] at hfind
  exact (find?_match hfind).2.2

theorem resolves_of_sound {r : Repository}
    (hw : w.getRepository request.owner request.repo = some r) (hsound : LookupSound w t request) :
    Resolves t r.id request.sha := by
  obtain ⟨short, hshort, hfull⟩ := answer_of_sound hw hsound
  refine ⟨isSome_shortSha.mp (by rw [hshort]; rfl), fun short' hshort' => ?_⟩
  obtain rfl : short = short' := Option.some.inj (hshort.symm.trans hshort')
  refine ⟨fun d hd hrepo hdshort => ?_, fun c hc hrepo hsha => ⟨hfull c hc hrepo hsha, ?_⟩⟩
  · exact (first_of_sound hw hsound hshort hd hrepo hdshort).1
  · exact fun d hd hdrepo hdshort =>
      (first_of_sound hw hsound hshort hd hdrepo hdshort).2 c hc hrepo hsha

theorem sound_of_resolves {r : Repository}
    (hw : w.getRepository request.owner request.repo = some r) (h : Resolves t r.id request.sha) :
    LookupSound w t request := by
  intro order horder
  obtain ⟨hcut, hrows⟩ := h
  obtain ⟨short, hshort⟩ := Option.isSome_iff_exists.mp (isSome_shortSha.mpr hcut)
  obtain ⟨hbegins, hfull⟩ := hrows short hshort
  refine ⟨okOr (order.find? fun c => decide (c.repoId = r.id ∧ c.shaShort = short))
    ⟨"commit", request.sha⟩, ?_, fun c hc => ?_, fun r' hr' c hc hrepo hsha => ?_⟩
  · simp only [getRepositoryCommit, hw, getCommit, hshort, Option.map_some]
  · obtain ⟨hmem, hrepo, hcshort⟩ := find?_match (okOr_eq_ok.mp hc)
    exact hbegins c (horder.mem_iff.mp hmem) hrepo hcshort
  · obtain rfl : r = r' := Option.some.inj (hw.symm.trans hr')
    obtain ⟨hcshort, honly⟩ := hfull c hc hrepo hsha
    rw [okOr_eq_ok]
    rcases hfind : order.find? fun c => decide (c.repoId = r.id ∧ c.shaShort = short) with _ | d
    · have hno := List.find?_eq_none.mp hfind c (horder.mem_iff.mpr hc)
      simp [hrepo, hcshort] at hno
    · obtain ⟨hd, hdrepo, hdshort⟩ := find?_match hfind
      exact hfind.trans (congrArg some (honly d (horder.mem_iff.mp hd) hdrepo hdshort))

/-- **Lookups.** -/
theorem lookup_sound_iff (w : World) (t : CommitTable) (request : GetRepositoryCommitRequest) :
    LookupSound w t request ↔
      ∀ repository ∈ w.getRepository request.owner request.repo,
        Resolves t repository.id request.sha := by
  rcases hw : w.getRepository request.owner request.repo with _ | repository
  · unfold LookupSound getRepositoryCommit
    rw [hw]
    refine iff_of_true (fun order _ => ⟨_, rfl, ?_, ?_⟩) fun r hr => by cases hr
    · exact fun c h => by cases h
    · exact fun r hr => by cases hr
  constructor
  · intro hsound r hr
    exact resolves_of_sound (hw.trans hr) hsound
  · intro hresolves
    exact sound_of_resolves hw (hresolves repository rfl)

/-- Of a text in ASCII the cut is the first seven characters. -/
theorem shortSha_ascii (h : ∀ ch ∈ sha.toList, ch.utf8Size = 1) :
    shortSha sha = some (sha.toList.take 7) := by
  have hlen := utf8Len_of_ascii h
  unfold shortSha
  rw [hlen]
  split_ifs with h7
  · have htake : utf8Len (sha.toList.take 7) = 7 := by
      rw [utf8Len_of_ascii fun ch hch => h ch (List.mem_of_mem_take hch),
        List.length_take_of_le h7]
    have hsplit : splitAt 7 sha.toList = some (sha.toList.take 7, sha.toList.drop 7) :=
      splitAt_eq_some.mpr ⟨(List.take_append_drop 7 _).symm, htake⟩
    rw [hsplit]
    rfl
  · rw [List.take_of_length_le (by omega)]

/-- Of a text in ASCII only the other commits with its first seven characters
matter. -/
theorem resolves_ascii_iff (h : ∀ ch ∈ sha.toList, ch.utf8Size = 1) :
    Resolves t repoId sha ↔
      ∀ c ∈ t.rows, c.repoId = repoId → c.shaShort = sha.toList.take 7 →
        sha.toList <+: c.sha.toList ∧ ∀ d ∈ t.rows, d.repoId = repoId → d.sha = sha → c = d := by
  have hshort := shortSha_ascii h
  have hcut := isSome_shortSha.mp (by rw [hshort]; rfl : (shortSha sha).isSome)
  constructor
  · rintro ⟨-, hrows⟩ c hc hrepo hcshort
    obtain ⟨hbegins, hfull⟩ := hrows _ hshort
    exact ⟨hbegins c hc hrepo hcshort, fun d hd hdrepo hsha =>
      (hfull d hd hdrepo hsha).2 c hc hrepo hcshort⟩
  · intro hall
    refine ⟨hcut, fun short hs => ?_⟩
    obtain rfl : sha.toList.take 7 = short := Option.some.inj (hshort.symm.trans hs)
    refine ⟨fun c hc hrepo hcshort => (hall c hc hrepo hcshort).1, fun c hc hrepo hsha => ?_⟩
    refine ⟨by rw [StoredCommit.shaShort, hsha], fun d hd hdrepo hdshort => ?_⟩
    exact (hall d hd hdrepo hdshort).2 c hc hrepo hsha

end Lookup

/-! ### A cut inside a character, and commits that share their first characters -/

/-- `ada/site`, which is public. -/
def lookupWorld : World :=
  { emptyWorld with
    users := ⟨[⟨1, "ada"⟩], List.pairwise_singleton _ _⟩
    repositories := ⟨[⟨3, "site", 1, .user, .publicRepo, false, .empty⟩], List.pairwise_singleton _ _⟩ }

/-- A commit of it. -/
def siteCommit (id : Uuid) (sha : String) : StoredCommit :=
  ⟨id, 3, some 1, "ada", "ada@mail.org", "refs/heads/main", sha, "", "change", 0, none, none, []⟩

def firstSha : String := "0123456aaaaaaaaaaaaaaaaaaaaaaaaaaaaaaaaa"

def secondSha : String := "0123456bbbbbbbbbbbbbbbbbbbbbbbbbbbbbbbbb"

/-- Two commits that share their first seven characters. -/
def siteCommits : CommitTable :=
  ⟨[siteCommit 5 firstSha, siteCommit 6 secondSha], by decide⟩

theorem not_lookup_sound :
    ¬ LookupSound lookupWorld siteCommits ⟨"ada", "site", secondSha⟩ ∧
      ¬ LookupSound lookupWorld siteCommits ⟨"ada", "site", "012345é"⟩ := by
  constructor
  · intro hsound
    obtain ⟨answer, hanswer, hbegins, -⟩ := hsound siteCommits.rows (.refl _)
    have hfirst : getRepositoryCommit lookupWorld siteCommits.rows ⟨"ada", "site", secondSha⟩ =
        some (.ok (siteCommit 5 firstSha)) := by decide +kernel
    obtain rfl := Option.some.inj (hfirst.symm.trans hanswer)
    exact absurd (hbegins _ rfl) (by decide +kernel)
  · intro hsound
    obtain ⟨answer, hanswer, -⟩ := hsound siteCommits.rows (.refl _)
    have hpanic : getRepositoryCommit lookupWorld siteCommits.rows ⟨"ada", "site", "012345é"⟩ = none := by
      decide +kernel
    rw [hpanic] at hanswer
    cases hanswer

end Lookup
end Gitdot
