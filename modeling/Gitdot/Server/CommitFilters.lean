/-
# Commit filters

A commit filter names the authors, the tags and the paths of the commits that it keeps. The
names in a request to store one are parsed, and what is parsed carries what has been checked
of it. Of the lists only the blanks are taken off (`normalizeStringList`): an entry of a
stored filter is any text that is not blank and has no blanks around it
(`normalizeStringList_eq_self_iff`).

Key definitions: `FilterName`, `validateSlug`, `OwnerName`, `RepositoryName`,
`normalizeStringList`, `CreateRepositoryCommitFilterRequest.new`,
`createRepositoryCommitFilter`.
Key theorems: `normalizeStringList_eq_self_iff`, `FilterName.parse_value`,
`createRepositoryCommitFilter_lists`.
-/
import Gitdot.Ci.Config
import Gitdot.Lib.Casing
import Gitdot.Review.Model

namespace Gitdot
namespace CommitFilters

open Lib

/-! ### Errors -/

structure InputError where
  field : String
  reason : String
  deriving DecidableEq

def InputError.text (e : InputError) : String := s!"Invalid {e.field}: {e.reason}"

/-- `RepositoryError`, as far as filters go. -/
inductive RepositoryError where
  | input (e : InputError)
  | notFound (entity id : String)
  | conflict (entity id : String)
  | databaseError
  deriving DecidableEq

/-! ### Names -/

/-- `str::len`. -/
def byteLength (s : List Char) : ℕ := (s.map Char.utf8Size).sum

/-- `str::trim`. -/
def trim (s : String) : String := String.ofList (Ci.trim s.toList)

theorem trimmed_trim_toList (s : String) : Trimmed Ci.isWhitespace (trim s).toList := by
  rw [trim, String.toList_ofList]
  exact trimmed_trim

theorem trim_eq_self {s : String} (h : Trimmed Ci.isWhitespace s.toList) : trim s = s := by
  rw [trim, Ci.trim, h.trim, String.ofList_toList]

/-- A name that has been parsed. -/
structure FilterName where
  value : String
  trimmed : Trimmed Ci.isWhitespace value.toList
  nonempty : value ≠ ""
  short : byteLength value.toList ≤ 100
  deriving DecidableEq

def FilterName.parse (value field : String) : Except InputError FilterName :=
  let name := trim value
  if hempty : name = "" then .error ⟨field, "cannot be empty"⟩
  else if hlong : 100 < byteLength name.toList then
    .error ⟨field, "must be at most 100 characters"⟩
  else .ok ⟨name, trimmed_trim_toList value, hempty, Nat.le_of_not_lt hlong⟩

def isAsciiLowercase (c : Char) : Bool := decide ('a' ≤ c ∧ c ≤ 'z')

def isAsciiDigit (c : Char) : Bool := decide ('0' ≤ c ∧ c ≤ '9')

def isSep (allowUnderscore : Bool) (c : Char) : Bool := c == '-' || allowUnderscore && c == '_'

def validateSlug (s : List Char) (allowUnderscore : Bool) : Except String Unit :=
  if byteLength s < 2 then .error "must be at least 2 characters"
  else if 32 < byteLength s then .error "must be at most 32 characters"
  else if s.any fun c => !(isAsciiLowercase c || isAsciiDigit c || isSep allowUnderscore c) then
    .error (if allowUnderscore then
      "can only contain lowercase letters, numbers, hyphens, and underscores"
    else "can only contain lowercase letters, numbers, and hyphens")
  else if s.head?.any (isSep allowUnderscore) || s.getLast?.any (isSep allowUnderscore) then
    .error (if allowUnderscore then "cannot start or end with a hyphen or underscore"
    else "cannot start or end with a hyphen")
  else if (s.zip (s.drop 1)).any fun (a, b) =>
      isSep allowUnderscore a && isSep allowUnderscore b then
    .error (if allowUnderscore then "cannot contain consecutive hyphens or underscores"
    else "cannot contain consecutive hyphens")
  else .ok ()

/-- A text that is a slug. -/
structure Slug (allowUnderscore : Bool) where
  value : List Char
  valid : validateSlug value allowUnderscore = .ok ()
  deriving DecidableEq

/-- The check as a constructor. -/
def Slug.check (allowUnderscore : Bool) (field : String) (s : List Char) :
    Except InputError (Slug allowUnderscore) :=
  match h : validateSlug s allowUnderscore with
  | .error reason => .error ⟨field, reason⟩
  | .ok () => .ok ⟨s, h⟩

/-- A user or an organization. -/
abbrev OwnerName := Slug false

abbrev RepositoryName := Slug true

section

variable (T : CaseTable Ci.isWhitespace)

def OwnerName.parse (value field : String) : Except InputError OwnerName :=
  Slug.check false field (T.toLowercase (Ci.trim value.toList))

def stripGitSuffix (s : List Char) : List Char :=
  if ['.', 'g', 'i', 't'] <:+ s then s.take (s.length - 4) else s

def RepositoryName.parse (value field : String) : Except InputError RepositoryName :=
  Slug.check true field (stripGitSuffix (T.toLowercase (Ci.trim value.toList)))

/-! ### Requests -/

def normalizeStringList (values : Option (List String)) : Option (List String) :=
  values.map fun v => (v.map trim).filter fun s => s ≠ ""

structure CreateRepositoryCommitFilterRequest where
  userId : Uuid
  owner : OwnerName
  repo : RepositoryName
  name : FilterName
  authors : Option (List String)
  tags : Option (List String)
  paths : Option (List String)
  deriving DecidableEq

def CreateRepositoryCommitFilterRequest.new (userId : Uuid) (owner repo name : String)
    (authors tags paths : Option (List String)) :
    Except RepositoryError CreateRepositoryCommitFilterRequest := do
  let owner ← (OwnerName.parse T owner "owner name").mapError .input
  let repo ← (RepositoryName.parse T repo "repository name").mapError .input
  let name ← (FilterName.parse name "filter name").mapError .input
  return ⟨userId, owner, repo, name, normalizeStringList authors, normalizeStringList tags,
    normalizeStringList paths⟩

end

/-! ### Rows -/

/-- A row of `core.commit_filters`. -/
structure CommitFilter where
  id : Uuid
  repositoryId : Uuid
  name : String
  authors : Option (List String)
  tags : Option (List String)
  paths : Option (List String)
  deriving DecidableEq

/-- A `TEXT` of the database holds no NUL. -/
def storable (s : String) : Bool := !s.toList.contains '\x00'

/-- The `INSERT`, which gives the row its id; a name occurs once in a repository. -/
def createCommitFilter (rows : List CommitFilter) (id repositoryId : Uuid) (name : String)
    (authors tags paths : Option (List String)) : Except RepositoryError CommitFilter :=
  if (name :: (authors.getD [] ++ tags.getD [] ++ paths.getD [])).all storable &&
      rows.all fun row => row.repositoryId ≠ repositoryId || row.name ≠ name then
    .ok ⟨id, repositoryId, name, authors, tags, paths⟩
  else .error .databaseError

/-- The repository is the one that `get` found, if it did, `existing` the first page of
its filters and `rows` those of the table at the `INSERT`. -/
def createRepositoryCommitFilter (repository : Option Uuid) (existing rows : List CommitFilter)
    (id : Uuid) (request : CreateRepositoryCommitFilterRequest) :
    Except RepositoryError CommitFilter :=
  let owner := String.ofList request.owner.value
  let repo := String.ofList request.repo.value
  let name := request.name.value
  match repository with
  | none => .error (.notFound "repository" s!"{owner}/{repo}")
  | some repositoryId =>
    if existing.any (·.name == name) then
      .error (.conflict "commit filter" s!"{owner}/{repo}/{name}")
    else createCommitFilter rows id repositoryId name request.authors request.tags request.paths

/-! ### What is stored -/

theorem CreateRepositoryCommitFilterRequest.new_paths {T : CaseTable Ci.isWhitespace}
    {userId : Uuid} {owner repo name : String} {authors tags paths : Option (List String)}
    {request : CreateRepositoryCommitFilterRequest}
    (h : CreateRepositoryCommitFilterRequest.new T userId owner repo name authors tags paths =
      .ok request) : request.paths = normalizeStringList paths := by
  obtain ⟨_, _, h⟩ := bind_eq_ok.mp h
  obtain ⟨_, _, h⟩ := bind_eq_ok.mp h
  obtain ⟨_, _, h⟩ := bind_eq_ok.mp h
  obtain rfl := Except.ok.inj h
  rfl

/-- What is stored of a list: its entries trimmed, but for the blank ones. -/
theorem forall_normalizeStringList {values : Option (List String)} {P : String → Prop} :
    (∀ s ∈ (normalizeStringList values).getD [], P s) ↔
      ∀ s ∈ values.getD [], trim s ≠ "" → P (trim s) := by
  cases values with
  | none => simp [normalizeStringList]
  | some v => simp [normalizeStringList]

/-- An entry that may be stored. -/
structure Entry (s : String) : Prop where
  nonempty : s ≠ ""
  trimmed : Trimmed Ci.isWhitespace s.toList

theorem entry_of_mem (values : Option (List String)) {s : String}
    (h : s ∈ (normalizeStringList values).getD []) : Entry s :=
  forall_normalizeStringList.mpr (fun t _ hne => ⟨hne, trimmed_trim_toList t⟩) s h

/-- **Entries.** A list is stored as it is if all its entries may be stored: nothing more is
asked of them. -/
theorem normalizeStringList_eq_self_iff {v : List String} :
    normalizeStringList (some v) = some v ↔ ∀ s ∈ v, Entry s := by
  constructor
  · intro h s hs
    refine entry_of_mem (some v) ?_
    rw [h]
    exact hs
  · intro h
    have hmap : v.map trim = v := by
      rw [List.map_congr_left fun s hs => trim_eq_self (h s hs).trimmed, List.map_id']
    rw [normalizeStringList, Option.map_some, hmap, List.filter_eq_self.mpr]
    exact fun s hs => decide_eq_true (h s hs).nonempty

/-- What has been normalized stays as it is. -/
theorem normalizeStringList_normalizeStringList (values : Option (List String)) :
    normalizeStringList (normalizeStringList values) = normalizeStringList values := by
  cases values with
  | none => rfl
  | some v =>
    exact normalizeStringList_eq_self_iff.mpr fun s hs => entry_of_mem (some v) hs

/-- What has been parsed is parsed again as it is. -/
theorem FilterName.parse_value (name : FilterName) (field : String) :
    FilterName.parse name.value field = .ok name := by
  unfold FilterName.parse
  simp only [trim_eq_self name.trimmed, dif_neg name.nonempty, dif_neg (Nat.not_lt.mpr name.short)]

/-- The lists of a stored filter are those of the request. -/
theorem createRepositoryCommitFilter_lists {repository : Option Uuid}
    {existing rows : List CommitFilter} {id : Uuid} {filter : CommitFilter}
    {request : CreateRepositoryCommitFilterRequest}
    (h : createRepositoryCommitFilter repository existing rows id request = .ok filter) :
    filter.authors = request.authors ∧ filter.tags = request.tags ∧ filter.paths = request.paths := by
  unfold createRepositoryCommitFilter createCommitFilter at h
  cases repository with
  | none => cases h
  | some repositoryId =>
    simp only at h
    split_ifs at h
    obtain rfl := Except.ok.inj h
    exact ⟨rfl, rfl, rfl⟩

end CommitFilters
end Gitdot
