/-
# Filtering the commits

`filterCommit` decides in the browser whether a commit is kept: by its author, by its
message, and by the paths of its diffs. A path of the filter is not compared, but compiled:
`new RegExp` throws where it is not a pattern, and nothing catches that. The paths are
those the server stored, any text that is not blank; the picker that fills them in offers the
paths of the repository as they are, and a path such as `c++/` is no pattern.

The evaluation always ends (`filterCommits_ends`). It returns a list for the filters whose
paths are patterns, and for the commits none of which passes the authors and the tags; else it
throws (`filterCommits_returns_iff`). Where the paths stand for themselves, they are searched
for in the paths of the diffs (`filterCommits_literal`).

Key definitions: `Eval`, `RepositoryCommitFilterResource`, `filterCommit`, `filterCommits`,
`Passes`, `Patterns`.
Key theorems: `filterCommits_ends`, `filterCommits_literal`, `filterCommits_returns_iff`.
-/
import Gitdot.Auth.Mailboxes
import Gitdot.Lib.RegExp.Matcher
import Gitdot.Server.CommitFilters

namespace Gitdot
namespace CommitFilters

open Lib RegExp

/-! ### Resources -/

/-- `RepositoryCommitFilterResource`, as far as it is read. -/
structure RepositoryCommitFilterResource where
  authors : Option (List CodeUnits)
  tags : Option (List CodeUnits)
  paths : Option (List CodeUnits)
  deriving DecidableEq

/-- A text in the browser. -/
def inBrowser (s : String) : CodeUnits := utf16 s.toList

/-- `into_api`. -/
def CommitFilter.intoApi (filter : CommitFilter) : RepositoryCommitFilterResource :=
  ⟨filter.authors.map (·.map inBrowser), filter.tags.map (·.map inBrowser),
    filter.paths.map (·.map inBrowser)⟩

structure CommitAuthorResource where
  name : Option CodeUnits
  gitName : CodeUnits
  deriving DecidableEq

structure CommitDiffResource where
  path : CodeUnits
  deriving DecidableEq

/-- `RepositoryCommitResource`, as far as it is read. -/
structure RepositoryCommitResource where
  message : CodeUnits
  author : CommitAuthorResource
  diffs : List CommitDiffResource
  deriving DecidableEq

/-! ### The evaluation -/

/-- What is thrown: the text that is no pattern. -/
inductive Thrown where
  | syntaxError (pattern : CodeUnits)
  deriving DecidableEq

/-- A call returns or throws; `none` is out of rounds. -/
abbrev Eval := ExceptT Thrown Option

section

variable (u : Unicode)

/-- `new RegExp`. -/
def newRegExp (p : CodeUnits) : Eval Node :=
  match parsePattern u p with
  | some n => pure n
  | none => throw (.syntaxError p)

/-- `re.test`. -/
def runTest (rounds : ℕ) (re : Node) (s : CodeUnits) : Eval Bool :=
  ExceptT.lift (test u s rounds re)

/-- An absent list and an empty one ask nothing. -/
def asks (values : Option (List CodeUnits)) (p : CodeUnits → Bool) : Bool :=
  values.getD [] = [] || (values.getD []).any p

def passesAuthors (filter : RepositoryCommitFilterResource) (commit : RepositoryCommitResource) :
    Bool :=
  let displayName := commit.author.name.getD commit.author.gitName
  asks filter.authors (displayName == ·)

def passesTags (filter : RepositoryCommitFilterResource) (commit : RepositoryCommitResource) :
    Bool :=
  asks filter.tags fun tag => decide (tag <:+: commit.message)

/-- The regular expressions are compiled before the first is tried. -/
def passesPaths (rounds : ℕ) (filter : RepositoryCommitFilterResource)
    (commit : RepositoryCommitResource) : Eval Bool :=
  if filter.paths.getD [] = [] then pure true
  else do
    let regexes ← (filter.paths.getD []).mapM (newRegExp u)
    commit.diffs.anyM fun diff => regexes.anyM fun re => runTest u rounds re diff.path

def filterCommit (rounds : ℕ) (filter : RepositoryCommitFilterResource)
    (commit : RepositoryCommitResource) : Eval Bool :=
  if passesAuthors filter commit = false then pure false
  else if passesTags filter commit = false then pure false
  else passesPaths u rounds filter commit

/-- `commits.filter`. -/
def filterCommits (rounds : ℕ) (filter : RepositoryCommitFilterResource) :
    List RepositoryCommitResource → Eval (List RepositoryCommitResource)
  | [] => pure []
  | commit :: commits => do
    let keep ← filterCommit u rounds filter commit
    let kept ← filterCommits rounds filter commits
    pure (if keep then commit :: kept else kept)

end

/-! ### How it ends -/

section

variable {α β : Type} {run : ℕ → Eval α}

/-- `run` ends with this result, given rounds enough. -/
def Ends (run : ℕ → Eval α) (r : Except Thrown α) : Prop :=
  Settles (fun rounds => (run rounds).run) r

theorem ends_pure (a : α) : Ends (fun _ => pure a) (.ok a) := ⟨0, fun _ _ => rfl⟩

theorem Ends.bind {a : α} {next : ℕ → α → Eval β} {r : Except Thrown β} (h : Ends run (.ok a))
    (hnext : Ends (fun rounds => next rounds a) r) :
    Ends (fun rounds => run rounds >>= next rounds) r := by
  obtain ⟨k, hk⟩ := h
  obtain ⟨l, hl⟩ := hnext
  refine ⟨max k l, fun rounds hrounds => ?_⟩
  have hrun : (run rounds).run = some (.ok a) :=
    hk rounds (Nat.le_trans (Nat.le_max_left k l) hrounds)
  simp only [ExceptT.run_bind, hrun]
  exact hl rounds (Nat.le_trans (Nat.le_max_right k l) hrounds)

theorem Ends.bind_error {e : Thrown} {next : ℕ → α → Eval β} (h : Ends run (.error e)) :
    Ends (fun rounds => run rounds >>= next rounds) (.error e) := by
  obtain ⟨k, hk⟩ := h
  refine ⟨k, fun rounds hrounds => ?_⟩
  have hrun : (run rounds).run = some (.error e) := hk rounds hrounds
  simp only [ExceptT.run_bind, hrun]
  rfl

theorem Ends.unique {r r' : Except Thrown α} (h : Ends run r) (h' : Ends run r') : r = r' := by
  obtain ⟨k, hk⟩ := h
  obtain ⟨l, hl⟩ := h'
  exact Option.some.inj ((hk _ (Nat.le_max_left k l)).symm.trans (hl _ (Nat.le_max_right k l)))

theorem ends_anyM {p : ℕ → α → Eval Bool} {q : α → Bool} : ∀ {as : List α},
    (∀ a ∈ as, Ends (fun rounds => p rounds a) (.ok (q a))) →
      Ends (fun rounds => as.anyM (p rounds)) (.ok (as.any q))
  | [], _ => ends_pure false
  | a :: as, h => by
    have hrest := ends_anyM fun b hb => h b (List.mem_cons_of_mem a hb)
    refine (h a List.mem_cons_self).bind ?_
    rw [List.any_cons]
    cases q a with
    | true => exact ends_pure true
    | false => exact hrest

end

section

variable {u : Unicode} {filter : RepositoryCommitFilterResource} {commit : RepositoryCommitResource}
  {commits : List RepositoryCommitResource}

/-- The commit gets as far as the paths. -/
def Passes (filter : RepositoryCommitFilterResource) (commit : RepositoryCommitResource) : Prop :=
  passesAuthors filter commit = true ∧ passesTags filter commit = true

instance : Decidable (Passes filter commit) := inferInstanceAs (Decidable (_ ∧ _))

/-- The paths are patterns. -/
def Patterns (u : Unicode) (filter : RepositoryCommitFilterResource) : Prop :=
  ∀ p ∈ filter.paths.getD [], ∃ n, PatternOf u p n

theorem newRegExp_eq {p : CodeUnits} {n : Node} (h : PatternOf u p n) : newRegExp u p = pure n := by
  simp only [newRegExp, parsePattern_eq_some.mpr h]

theorem newRegExp_throw {p : CodeUnits} (h : ¬ ∃ n, PatternOf u p n) :
    newRegExp u p = throw (.syntaxError p) := by
  cases hp : parsePattern u p with
  | none => simp only [newRegExp, hp]
  | some n => exact absurd ⟨n, parsePattern_eq_some.mp hp⟩ h

theorem mapM_newRegExp : ∀ {ps : List CodeUnits}, (∀ p ∈ ps, ∃ n, PatternOf u p n) →
    ∃ ns, ps.mapM (newRegExp u) = pure ns
  | [], _ => ⟨[], rfl⟩
  | p :: ps, h => by
    obtain ⟨n, hn⟩ := h p List.mem_cons_self
    obtain ⟨ns, hns⟩ := mapM_newRegExp fun q hq => h q (List.mem_cons_of_mem p hq)
    exact ⟨n :: ns, by rw [List.mapM_cons, newRegExp_eq hn, pure_bind, hns, pure_bind]⟩

/-- The first text that is no pattern is thrown. -/
theorem mapM_newRegExp_throw : ∀ {ps : List CodeUnits}, (¬ ∀ p ∈ ps, ∃ n, PatternOf u p n) →
    ∃ p ∈ ps, ps.mapM (newRegExp u) = throw (.syntaxError p)
  | [], h => absurd nofun h
  | p :: ps, h => by
    rw [List.mapM_cons]
    by_cases hp : ∃ n, PatternOf u p n
    · obtain ⟨n, hn⟩ := hp
      have hrest : ¬ ∀ q ∈ ps, ∃ n, PatternOf u q n :=
        fun hps => h (List.forall_mem_cons.mpr ⟨⟨n, hn⟩, hps⟩)
      obtain ⟨q, hq, hthrow⟩ := mapM_newRegExp_throw hrest
      exact ⟨q, List.mem_cons_of_mem p hq, by rw [newRegExp_eq hn, pure_bind, hthrow]; rfl⟩
    · exact ⟨p, List.mem_cons_self, by rw [newRegExp_throw hp]; rfl⟩

theorem mapM_newRegExp_literal : ∀ {ps : List CodeUnits}, (∀ p ∈ ps, Literal p) →
    ps.mapM (newRegExp u) = pure (ps.map literal)
  | [], _ => rfl
  | p :: ps, h => by
    rw [List.mapM_cons, newRegExp_eq (patternOf_literal (h p List.mem_cons_self)), pure_bind,
      mapM_newRegExp_literal fun q hq => h q (List.mem_cons_of_mem p hq), pure_bind]
    rfl

/-- Whether one of the regular expressions matches a path of the commit, from how each of them
settles. -/
theorem ends_test {q : CodeUnits → Node → Bool}
    (hq : ∀ path re, Settles (fun rounds => test u path rounds re) (q path re)) (regexes : List Node)
    (diffs : List CommitDiffResource) :
    Ends (fun rounds => diffs.anyM fun diff => regexes.anyM fun re => runTest u rounds re diff.path)
      (.ok (diffs.any fun diff => regexes.any (q diff.path))) := by
  refine ends_anyM fun diff _ => ends_anyM fun re _ => ?_
  obtain ⟨bound, hbound⟩ := hq diff.path re
  refine ⟨bound, fun rounds hrounds => ?_⟩
  have htest : test u diff.path rounds re = some (q diff.path re) := hbound rounds hrounds
  simp only [runTest, ExceptT.run_lift, htest]
  rfl

theorem ends_passesPaths (h : Patterns u filter) (commit : RepositoryCommitResource) :
    ∃ b, Ends (fun rounds => passesPaths u rounds filter commit) (.ok b) := by
  unfold passesPaths
  split_ifs
  · exact ⟨true, ends_pure true⟩
  · obtain ⟨ns, hns⟩ := mapM_newRegExp h
    choose q hq using test_ends u
    simp only [hns, pure_bind]
    exact ⟨_, ends_test hq ns commit.diffs⟩

/-- A path that is no pattern is thrown, whatever the diffs. -/
theorem throws_passesPaths (h : ¬ Patterns u filter) (commit : RepositoryCommitResource) :
    ∃ p ∈ filter.paths.getD [],
      Ends (fun rounds => passesPaths u rounds filter commit) (.error (.syntaxError p)) := by
  obtain ⟨p, hp, hthrow⟩ := mapM_newRegExp_throw h
  refine ⟨p, hp, 0, fun rounds _ => ?_⟩
  have hne : filter.paths.getD [] ≠ [] := List.ne_nil_of_mem hp
  simp only [passesPaths, if_neg hne, hthrow]
  rfl

/-- **One commit.** It makes the evaluation throw if it gets as far as the paths, and one of
these is no pattern. -/
theorem filterCommit_ends (u : Unicode) (filter : RepositoryCommitFilterResource)
    (commit : RepositoryCommitResource) :
    (∃ b, Ends (fun rounds => filterCommit u rounds filter commit) (.ok b)) ∧
        (Patterns u filter ∨ ¬ Passes filter commit) ∨
      (∃ p ∈ filter.paths.getD [],
          Ends (fun rounds => filterCommit u rounds filter commit) (.error (.syntaxError p))) ∧
        ¬ Patterns u filter ∧ Passes filter commit := by
  unfold filterCommit
  split_ifs with hauthors htags
  · exact .inl ⟨⟨false, ends_pure false⟩, .inr fun h => by simp [h.1] at hauthors⟩
  · exact .inl ⟨⟨false, ends_pure false⟩, .inr fun h => by simp [h.2] at htags⟩
  · by_cases hpatterns : Patterns u filter
    · exact .inl ⟨ends_passesPaths hpatterns commit, .inl hpatterns⟩
    · refine .inr ⟨throws_passesPaths hpatterns commit, hpatterns, ?_, ?_⟩
      · simpa using hauthors
      · simpa using htags

/-- **Termination.** With a list, or with what is thrown. -/
theorem filterCommits_ends (u : Unicode) (filter : RepositoryCommitFilterResource) :
    ∀ commits : List RepositoryCommitResource,
      (∃ kept, Ends (fun rounds => filterCommits u rounds filter commits) (.ok kept)) ∧
          (Patterns u filter ∨ ∀ commit ∈ commits, ¬ Passes filter commit) ∨
        (∃ p ∈ filter.paths.getD [],
            Ends (fun rounds => filterCommits u rounds filter commits) (.error (.syntaxError p))) ∧
          ¬ Patterns u filter ∧ ∃ commit ∈ commits, Passes filter commit
  | [] => .inl ⟨⟨[], ends_pure []⟩, .inr nofun⟩
  | commit :: commits => by
    obtain ⟨⟨keep, hkeep⟩, hcommit⟩ | ⟨⟨p, hp, hthrow⟩, hpatterns, hpasses⟩ :=
      filterCommit_ends u filter commit
    · obtain ⟨⟨kept, hkept⟩, hcommits⟩ | ⟨⟨p, hp, hthrow⟩, hpatterns, c, hc, hpasses⟩ :=
        filterCommits_ends u filter commits
      · refine .inl ⟨⟨_, hkeep.bind (hkept.bind (ends_pure _))⟩, ?_⟩
        by_cases hpatterns : Patterns u filter
        · exact .inl hpatterns
        · exact .inr (List.forall_mem_cons.mpr
            ⟨hcommit.resolve_left hpatterns, hcommits.resolve_left hpatterns⟩)
      · exact .inr ⟨⟨p, hp, hkeep.bind hthrow.bind_error⟩, hpatterns, c,
          List.mem_cons_of_mem commit hc, hpasses⟩
    · exact .inr ⟨⟨p, hp, hthrow.bind_error⟩, hpatterns, commit, List.mem_cons_self, hpasses⟩

theorem filterCommits_throws (hnot : ¬ Patterns u filter) (hcommit : commit ∈ commits)
    (hpasses : Passes filter commit) :
    ∃ p ∈ filter.paths.getD [],
      Ends (fun rounds => filterCommits u rounds filter commits) (.error (.syntaxError p)) := by
  obtain ⟨-, hpatterns | hnone⟩ | ⟨hthrow, -⟩ := filterCommits_ends u filter commits
  · exact absurd hpatterns hnot
  · exact absurd hpasses (hnone commit hcommit)
  · exact hthrow

/-! ### Paths that stand for themselves -/

/-- A path of a diff has one of the filter's paths in it. -/
def pathsInside (filter : RepositoryCommitFilterResource) (commit : RepositoryCommitResource) :
    Bool :=
  filter.paths.getD [] = [] || commit.diffs.any fun diff =>
    (filter.paths.getD []).any fun p => decide (p <:+: diff.path)

theorem ends_passesPaths_literal (h : ∀ p ∈ filter.paths.getD [], Literal p)
    (commit : RepositoryCommitResource) :
    Ends (fun rounds => passesPaths u rounds filter commit) (.ok (pathsInside filter commit)) := by
  unfold passesPaths pathsInside
  split_ifs with hnil
  · rw [decide_eq_true hnil]
    exact ends_pure true
  · choose q hq using test_ends u
    have hliteral : ∀ path p, q path (literal p) = decide (p <:+: path) := by
      intro path p
      obtain ⟨bound, hbound⟩ := hq path (literal p)
      exact Option.some.inj ((hbound bound (Nat.le_refl _)).symm.trans test_literal)
    have htest := ends_test hq ((filter.paths.getD []).map literal) commit.diffs
    simp only [List.any_map, Function.comp_def, hliteral] at htest
    simp only [mapM_newRegExp_literal h, pure_bind, decide_eq_false hnil, Bool.false_or]
    exact htest

theorem ends_filterCommit_literal (h : ∀ p ∈ filter.paths.getD [], Literal p)
    (commit : RepositoryCommitResource) :
    Ends (fun rounds => filterCommit u rounds filter commit)
      (.ok (passesAuthors filter commit && passesTags filter commit && pathsInside filter commit)) := by
  unfold filterCommit
  cases passesAuthors filter commit with
  | false => exact ends_pure false
  | true =>
    cases passesTags filter commit with
    | false => exact ends_pure false
    | true => exact ends_passesPaths_literal h commit

/-- **Literal paths** are searched for. -/
theorem filterCommits_literal (u : Unicode) (h : ∀ p ∈ filter.paths.getD [], Literal p) :
    ∀ commits : List RepositoryCommitResource,
      Ends (fun rounds => filterCommits u rounds filter commits)
        (.ok (commits.filter fun commit =>
          passesAuthors filter commit && passesTags filter commit && pathsInside filter commit))
  | [] => ends_pure []
  | commit :: commits => by
    have hkept := filterCommits_literal u h commits
    refine (ends_filterCommit_literal h commit).bind (hkept.bind ?_)
    rw [List.filter_cons]
    exact ends_pure _

end

/-! ### Stored filters -/

theorem patterns_intoApi {u : Unicode} {filter : CommitFilter} :
    Patterns u filter.intoApi ↔ ∀ p ∈ filter.paths.getD [], ∃ n, PatternOf u (inBrowser p) n := by
  unfold Patterns CommitFilter.intoApi
  cases filter.paths with
  | none => simp
  | some ps => simp

/-- **A stored filter** is evaluated without an error on the commits if its paths are patterns,
or no commit passes its authors and tags. -/
theorem filterCommits_returns_iff {T : CaseTable Ci.isWhitespace} {userId id : Uuid}
    {owner repo name : String} {authors tags paths : Option (List String)}
    {request : CreateRepositoryCommitFilterRequest} {repository : Option Uuid}
    {existing rows : List CommitFilter} {filter : CommitFilter} (u : Unicode)
    (hnew : CreateRepositoryCommitFilterRequest.new T userId owner repo name authors tags paths =
      .ok request)
    (hstored : createRepositoryCommitFilter repository existing rows id request = .ok filter)
    (commits : List RepositoryCommitResource) :
    (∃ kept, Ends (fun rounds => filterCommits u rounds filter.intoApi commits) (.ok kept)) ↔
      (∀ path ∈ paths.getD [], trim path ≠ "" → ∃ n, PatternOf u (inBrowser (trim path)) n) ∨
        ∀ commit ∈ commits, ¬ Passes filter.intoApi commit := by
  have hpatterns : Patterns u filter.intoApi ↔
      ∀ path ∈ paths.getD [], trim path ≠ "" → ∃ n, PatternOf u (inBrowser (trim path)) n := by
    rw [patterns_intoApi, (createRepositoryCommitFilter_lists hstored).2.2,
      CreateRepositoryCommitFilterRequest.new_paths hnew, forall_normalizeStringList]
  rw [← hpatterns]
  -- it ends in one of two ways, each with its condition
  obtain ⟨hkept, hcondition⟩ | ⟨⟨p, -, hthrow⟩, hnot, commit, hcommit, hpasses⟩ :=
    filterCommits_ends u filter.intoApi commits
  · exact ⟨fun _ => hcondition, fun _ => hkept⟩
  · constructor
    · rintro ⟨kept, hkept⟩
      cases hkept.unique hthrow
    · rintro (hpatterns | hnone)
      · exact absurd hpatterns hnot
      · exact absurd hpasses (hnone commit hcommit)

/-! ### An instance -/

/-- Identifiers and capitals in ASCII. -/
def asciiUnicode : Unicode :=
  ⟨fun _ => false, fun _ => false, fun c => if 97 ≤ c ∧ c ≤ 122 then [c - 32] else [c]⟩

theorem trimmed_code : Trimmed Ci.isWhitespace "Code".toList := by
  have htrim : trim "Code" = "Code" := by decide +kernel
  exact htrim ▸ trimmed_trim_toList "Code"

/-- A filter of the repository `alice/app` for one directory. -/
def directoryRequest (path : String) : CreateRepositoryCommitFilterRequest :=
  ⟨1, ⟨['a', 'l', 'i', 'c', 'e'], by decide +kernel⟩, ⟨['a', 'p', 'p'], by decide +kernel⟩,
    ⟨"Code", trimmed_code, by decide, by decide⟩, none, none, some [path]⟩

/-- Its row. -/
def directoryFilter (path : String) : CommitFilter := ⟨3, 2, "Code", none, none, some [path]⟩

/-- A commit that touches a file of the directory. -/
def directoryCommit (path : String) : RepositoryCommitResource :=
  ⟨inBrowser "Start", ⟨none, inBrowser "Alice"⟩, [⟨inBrowser (path ++ "main.txt")⟩]⟩

theorem filterCommits_returns_iff_src :
    (∃ kept, Ends (fun rounds => filterCommits asciiUnicode rounds (directoryFilter "src/").intoApi
      [directoryCommit "src/"]) (.ok kept)) := by
  have hnew : CreateRepositoryCommitFilterRequest.new Auth.asciiTable 1 "Alice" "app.git" " Code"
      none none (some [" src/", ""]) = .ok (directoryRequest "src/") := by decide +kernel
  have hstored : createRepositoryCommitFilter (some 2) [] [] 3 (directoryRequest "src/") =
      .ok (directoryFilter "src/") := by decide +kernel
  refine (filterCommits_returns_iff asciiUnicode hnew hstored [directoryCommit "src/"]).mpr (.inl ?_)
  have hliteral : ∀ path ∈ [" src/", ""], Literal (inBrowser (trim path)) := by decide +kernel
  exact fun path hpath _ => ⟨_, patternOf_literal (hliteral path hpath)⟩

/-- The directory `c++` is no pattern, and the list of its commits is lost. -/
theorem not_filterCommits_returns :
    ¬ ∀ (name : String) (authors tags paths : Option (List String))
        (request : CreateRepositoryCommitFilterRequest) (filter : CommitFilter)
        (commits : List RepositoryCommitResource),
      CreateRepositoryCommitFilterRequest.new Auth.asciiTable 1 "alice" "app" name authors tags paths =
          .ok request →
        createRepositoryCommitFilter (some 2) [] [] 3 request = .ok filter →
          ∃ kept, Ends (fun rounds => filterCommits asciiUnicode rounds filter.intoApi commits)
            (.ok kept) := by
  intro h
  obtain ⟨kept, hkept⟩ := h "Code" none none (some ["c++/"]) (directoryRequest "c++/")
    (directoryFilter "c++/") [directoryCommit "c++/"] (by decide +kernel) (by decide +kernel)
  have hnone : parsePattern asciiUnicode (inBrowser "c++/") = none := by decide +kernel
  have hnot : ¬ Patterns asciiUnicode (directoryFilter "c++/").intoApi := by
    rw [patterns_intoApi]
    intro hpatterns
    obtain ⟨n, hn⟩ := hpatterns "c++/" List.mem_cons_self
    rw [parsePattern_eq_some.mpr hn] at hnone
    cases hnone
  have hpasses : Passes (directoryFilter "c++/").intoApi (directoryCommit "c++/") := by
    decide +kernel
  obtain ⟨p, -, hthrow⟩ := filterCommits_throws hnot List.mem_cons_self hpasses
  cases hkept.unique hthrow

end CommitFilters
end Gitdot
