/-
# The paths that stand for a commit

The commit list sums a commit up by a few paths (`computePrimaryPaths`). The
files are grouped by their first directory; while there are too few groups, the
largest group that has files further down is split a level deeper. The groups
with the most changed lines are kept. A group of one file is shown by the name
of the file, with its directory if it fits, and any other group by its
directory, from which leading parts are cut off until it fits.

The groups are a partition of the files by their directories at every moment of
the loop (`splitLoop_run`), the loop ends (`splitLoop_ends`), and what is shown
sums up different parts of the files (`sumsUp_summaries`). The names are
counted, and one that two groups would get is not used; the directories are not
counted again after they were cut, so two of them may be shown as one. What is
shown is distinct exactly if no two directories fall together that way
(`computePrimaryPaths_summarises_iff`).

Key definitions: `FilePath`, `keyAt`, `splitLoop`, `truncateFromRoot`,
`compactOf`, `computePrimaryPaths`, `Summary`, `DirectoriesApart`.
Key theorems: `splitLoop_run`, `splitLoop_ends`, `shown_ne_iff`,
`computePrimaryPaths_summarises_iff`.
-/
import Gitdot.Lib.Grouping
import Gitdot.Web.Fuzzy
import Mathlib.Algebra.Ring.Int.Defs
import Mathlib.Data.List.Nodup

namespace Gitdot
namespace PrimaryPaths

open Lib Grouping
open Fuzzy (JsString)

/-! ### Paths -/

/-- `/`. -/
def slash : ℕ := 0x2F

/-- `.`. -/
def dot : ℕ := 0x2E

/-- `path.split("/")`. -/
def split (path : JsString) : List JsString := path.splitOn slash

/-- `parts.join("/")`. -/
def join (parts : List JsString) : JsString := [slash].intercalate parts

/-- The path of a file in a tree of git, whose parts are names. The server
gives the empty path to a file whose path is not Unicode. -/
structure FilePath where
  text : JsString
  proper : text = [] ∨ ∀ part ∈ split text, part ≠ [] ∧ part ≠ [dot]
  deriving DecidableEq

/-- The directories that a file is in. -/
def FilePath.dirs (p : FilePath) : List JsString := (split p.text).dropLast

/-- `CommitDiffResource`. -/
structure CommitDiff where
  path : FilePath
  linesAdded : ℤ
  linesRemoved : ℤ
  deriving DecidableEq

/-! ### Groups -/

/-- `PathGroup`, its `diffs` the members. -/
abbrev PathGroup := Group JsString CommitDiff

/-- The directory as a key, `"./"` for no directory. -/
def keyOf (dirs : List JsString) : JsString :=
  let key := join dirs
  if key = [] then [dot, slash] else key

/-- The key of a file in the groups of a depth. -/
def keyAt (depth : ℕ) (diff : CommitDiff) : JsString := keyOf (diff.path.dirs.take depth)

/-- The groups that the loop starts with. -/
def seed (diffs : List CommitDiff) : List PathGroup := groupAt (keyAt 1) 1 diffs

/-- Some file of the group lies in a directory below that of the group. -/
def splittable (g : PathGroup) : Bool :=
  g.members.any fun d => decide (g.depth < (split d.path.text).length - 1)

/-- `reduce` to a group with the most files, the first of them. -/
def largest : List PathGroup → Option PathGroup
  | [] => none
  | g :: gs => some (gs.foldl (fun a b => if a.members.length < b.members.length then b else a) g)

/-- The `while` loop. Of equal groups `erase` takes the first, which is the one
that `largest` returns. -/
def splitLoop (target : ℕ) : ℕ → List PathGroup → Option (List PathGroup)
  | 0, _ => none
  | fuel + 1, groups =>
    if groups.length < target then
      match largest (groups.filter splittable) with
      | none => some groups
      | some toSplit =>
        let newDepth := toSplit.depth + 1
        splitLoop target fuel
          (groups.erase toSplit ++ groupAt (keyAt newDepth) newDepth toSplit.members)
    else some groups

/-- The groups in which the loop ends. -/
def splitGroups (fuel : ℕ) (diffs : List CommitDiff) (n : ℕ) : Option (List PathGroup) :=
  splitLoop (min n diffs.length) fuel (seed diffs)

/-! ### What is shown of a group -/

/-- `MAX_PATH_LEN`. -/
def maxPathLen : ℕ := 22

/-- The `while` loop of `truncateFromRoot`. -/
def shiftParts (maxLen : ℕ) : List JsString → List JsString
  | part :: next :: parts =>
    if maxLen < (join (part :: next :: parts)).length then shiftParts maxLen (next :: parts)
    else part :: next :: parts
  | parts => parts

def truncateFromRoot (path : JsString) (maxLen : ℕ) : JsString :=
  join (shiftParts maxLen (split path))

/-- A group, its lines added up. -/
structure Entry where
  key : JsString
  added : ℤ
  removed : ℤ
  files : ℕ
  singlePath : Option FilePath

def aggregate (g : PathGroup) : Entry where
  key := g.key
  added := (g.members.map CommitDiff.linesAdded).sum
  removed := (g.members.map CommitDiff.linesRemoved).sum
  files := g.members.length
  singlePath :=
    match g.members with
    | [d] => some d.path
    | _ => none

/-- The order by lines changed, most first. -/
def changedMore (a b : Entry) : Bool := decide (b.added + b.removed ≤ a.added + a.removed)

/-- The groups that are kept. -/
def chosen (n : ℕ) (groups : List PathGroup) : List Entry :=
  ((groups.map aggregate).mergeSort changedMore).take n

/-- The key, cut to the length that is shown. -/
def truncatedKey (key : JsString) : JsString :=
  if key.length ≤ maxPathLen then key else truncateFromRoot key maxPathLen

/-- The name of a file, with its directory in front if that fits. -/
def compactName (path : JsString) : Option JsString :=
  let parts := split path
  let filename := parts.getLastD []
  let withParent :=
    if 2 ≤ parts.length then parts.dropLast.getLastD [] ++ slash :: filename else filename
  let c := if withParent.length ≤ maxPathLen then withParent else filename
  if c.length ≤ maxPathLen then some c else none

/-- The compact form of a group: that of its file, if it has one file, of a
path that is not empty. -/
def compactOf (e : Entry) : Option JsString :=
  match e.singlePath with
  | some path => if e.files = 1 ∧ path.text ≠ [] then compactName path.text else none
  | none => none

/-- A group as it may be shown. -/
structure Candidate where
  key : JsString
  added : ℤ
  removed : ℤ
  compact : Option JsString

def candidate (e : Entry) : Candidate := ⟨truncatedKey e.key, e.added, e.removed, compactOf e⟩

/-- `counts.get(compact)`: the candidates of one compact form. -/
def counts (candidates : List Candidate) (compact : JsString) : ℕ :=
  (candidates.filter fun x => decide (x.compact = some compact)).length

/-- `path.endsWith("/")`. -/
def endsInSlash (path : JsString) : Bool := path.getLast? == some slash

/-- A key as a directory. -/
def dirPath (key : JsString) : JsString := if endsInSlash key then key else key ++ [slash]

/-- The path that a candidate is shown by. An empty compact form is no form. -/
def pathOf (candidates : List Candidate) (x : Candidate) : JsString :=
  match x.compact with
  | some compact =>
    if compact ≠ [] ∧ counts candidates compact = 1 then compact else dirPath x.key
  | none => dirPath x.key

/-- An entry of the result. -/
structure PrimaryPath where
  path : JsString
  added : ℤ
  removed : ℤ
  deriving DecidableEq

/-- Directories first, then by the number of parts. -/
def dirsFirst (a b : PrimaryPath) : Bool :=
  if endsInSlash a.path ≠ endsInSlash b.path then endsInSlash a.path
  else decide ((split a.path).length ≤ (split b.path).length)

/-- What is shown of the groups. -/
def summaries (n : ℕ) (groups : List PathGroup) : List PrimaryPath :=
  let candidates := (chosen n groups).map candidate
  (candidates.map fun x => ⟨pathOf candidates x, x.added, x.removed⟩).mergeSort dirsFirst

def computePrimaryPaths (fuel : ℕ) (diffs : List CommitDiff) (n : ℕ) :
    Option (List PrimaryPath) :=
  if diffs = [] then some [] else (splitGroups fuel diffs n).map (summaries n)

/-! ### Keys of directories -/

theorem split_ne_nil (path : JsString) : split path ≠ [] := List.splitOn_ne_nil slash path

/-- Parts of a path that name directories. -/
def Proper (parts : List JsString) : Prop :=
  ∀ part ∈ parts, part ≠ [] ∧ part ≠ [dot] ∧ slash ∉ part

theorem slash_notMem_of_mem_split : ∀ {path part : JsString}, part ∈ split path → slash ∉ part
  | [], part, h => by
    rw [List.mem_singleton.mp (show part ∈ [[]] from h)]
    exact List.not_mem_nil
  | c :: path, part, h => by
    rw [split, List.splitOn_cons_eq_if_modifyHead] at h
    by_cases hc : c = slash
    · rw [if_pos (beq_iff_eq.mpr hc)] at h
      rcases List.mem_cons.mp h with rfl | h
      · exact List.not_mem_nil
      · have hmem : part ∈ split path := h
        exact slash_notMem_of_mem_split hmem
    · rw [if_neg (mt beq_iff_eq.mp hc)] at h
      obtain ⟨first, others, hsplit⟩ :=
        List.exists_cons_of_ne_nil (split_ne_nil path)
      rw [← split, hsplit, List.modifyHead_cons] at h
      rcases List.mem_cons.mp h with rfl | h
      · have hfirst : first ∈ split path := by rw [hsplit]; exact List.mem_cons_self
        rw [List.mem_cons, not_or]
        exact ⟨Ne.symm hc, slash_notMem_of_mem_split hfirst⟩
      · have hpart : part ∈ split path := by rw [hsplit]; exact List.mem_cons_of_mem _ h
        exact slash_notMem_of_mem_split hpart

theorem FilePath.proper_dirs (p : FilePath) : Proper p.dirs := by
  intro part hpart
  have hmem : part ∈ split p.text := (List.dropLast_sublist _).mem hpart
  rcases p.proper with hempty | hproper
  · rw [dirs, hempty] at hpart
    cases hpart
  · exact ⟨(hproper part hmem).1, (hproper part hmem).2, slash_notMem_of_mem_split hmem⟩

theorem Proper.of_subset {parts others : List JsString} (h : Proper parts)
    (hsub : others ⊆ parts) : Proper others := fun part hpart => h part (hsub hpart)

theorem split_join {parts : List JsString} (h : Proper parts) (hne : parts ≠ []) :
    split (join parts) = parts :=
  List.splitOn_intercalate slash (fun part hpart => (h part hpart).2.2) hne

theorem join_cons_cons (part next : JsString) (parts : List JsString) :
    join (part :: next :: parts) = part ++ slash :: join (next :: parts) := by
  simp [join]

theorem join_ne_nil {parts : List JsString} (h : Proper parts) (hne : parts ≠ []) :
    join parts ≠ [] := by
  cases parts with
  | nil => exact absurd rfl hne
  | cons part parts =>
    cases parts with
    | nil => simpa [join] using (h part List.mem_cons_self).1
    | cons next parts => simp [join_cons_cons]

theorem endsInSlash_of_notMem {path : JsString} (h : slash ∉ path) : endsInSlash path = false := by
  rw [endsInSlash, beq_eq_false_iff_ne]
  exact fun hlast => h (List.mem_of_getLast? hlast)

theorem endsInSlash_append {front path : JsString} (h : path ≠ []) :
    endsInSlash (front ++ path) = endsInSlash path := by
  rw [endsInSlash, endsInSlash, List.getLast?_append_of_ne_nil _ h]

theorem endsInSlash_join : ∀ {parts : List JsString}, Proper parts → endsInSlash (join parts) = false
  | [], _ => rfl
  | [part], h => by
    rw [join, List.intercalate_singleton]
    exact endsInSlash_of_notMem (h part List.mem_cons_self).2.2
  | part :: next :: parts, h => by
    have hrest : Proper (next :: parts) := h.of_subset (List.subset_cons_self _ _)
    rw [join_cons_cons, List.append_cons, endsInSlash_append (join_ne_nil hrest (List.cons_ne_nil _ _))]
    exact endsInSlash_join hrest

theorem keyOf_of_ne_nil {parts : List JsString} (h : Proper parts) (hne : parts ≠ []) :
    keyOf parts = join parts := if_neg (join_ne_nil h hne)

theorem dirPath_keyOf {parts : List JsString} (h : Proper parts) (hne : parts ≠ []) :
    dirPath (keyOf parts) = join parts ++ [slash] := by
  rw [dirPath, keyOf_of_ne_nil h hne, endsInSlash_join h]
  rfl

/-- No part is a dot, so no directory is shown as the root is. -/
theorem dirPath_keyOf_ne_root {parts : List JsString} (h : Proper parts) (hne : parts ≠ []) :
    dirPath (keyOf parts) ≠ dirPath (keyOf []) := by
  rw [dirPath_keyOf h hne]
  intro heq
  have happend : join parts ++ [slash] = [dot] ++ [slash] := heq
  have hsplit := split_join h hne
  rw [List.append_cancel_right happend] at hsplit
  have hdot : [dot] ∈ parts := by
    rw [← hsplit]
    decide
  exact (h _ hdot).2.1 rfl

/-- A key shown as a directory determines the directory. -/
theorem dirPath_keyOf_inj {parts others : List JsString} (hp : Proper parts) (ho : Proper others)
    (h : dirPath (keyOf parts) = dirPath (keyOf others)) : parts = others := by
  by_cases hpn : parts = []
  · by_cases hon : others = []
    · rw [hpn, hon]
    · rw [hpn] at h
      exact absurd h.symm (dirPath_keyOf_ne_root ho hon)
  · by_cases hon : others = []
    · rw [hon] at h
      exact absurd h (dirPath_keyOf_ne_root hp hpn)
    · rw [dirPath_keyOf hp hpn, dirPath_keyOf ho hon] at h
      rw [← split_join hp hpn, List.append_cancel_right h, split_join ho hon]

/-- And so does the key. -/
theorem keyOf_inj {parts others : List JsString} (hp : Proper parts) (ho : Proper others)
    (h : keyOf parts = keyOf others) : parts = others :=
  dirPath_keyOf_inj hp ho (congrArg dirPath h)

/-- The keys of the files. -/
def directories : Hierarchy JsString CommitDiff where
  key := keyAt
  coarser {d e c x y} hd he h := by
    have htake : x.path.dirs.take d = y.path.dirs.take e :=
      keyOf_inj (x.path.proper_dirs.of_subset (List.take_subset _ _))
        (y.path.proper_dirs.of_subset (List.take_subset _ _)) h
    have hc : x.path.dirs.take c = y.path.dirs.take c := by
      rw [← Nat.min_eq_left hd, ← List.take_take, htake, List.take_take, Nat.min_eq_left he,
        Nat.min_eq_left hd]
    rw [keyAt, hc, keyAt]

/-! ### Truncation -/

theorem shiftParts_suffix (maxLen : ℕ) : ∀ parts : List JsString, shiftParts maxLen parts <:+ parts
  | [] => List.suffix_refl _
  | [_] => List.suffix_refl _
  | part :: next :: parts => by
    unfold shiftParts
    split
    · exact (shiftParts_suffix maxLen (next :: parts)).trans (List.suffix_cons _ _)
    · exact List.suffix_refl _

theorem shiftParts_ne_nil (maxLen : ℕ) :
    ∀ {parts : List JsString}, parts ≠ [] → shiftParts maxLen parts ≠ []
  | [_], _ => List.cons_ne_nil _ _
  | part :: next :: parts, _ => by
    unfold shiftParts
    split
    · exact shiftParts_ne_nil maxLen (List.cons_ne_nil _ _)
    · exact List.cons_ne_nil _ _

/-- What is left of a directory is its last parts. -/
theorem truncatedKey_keyOf {parts : List JsString} (h : Proper parts) :
    ∃ others, others <:+ parts ∧ truncatedKey (keyOf parts) = keyOf others := by
  unfold truncatedKey
  split
  · exact ⟨parts, List.suffix_refl _, rfl⟩
  · next hlong =>
    have hne : parts ≠ [] := fun hnil => hlong (by rw [hnil]; decide)
    have hsuffix := shiftParts_suffix maxPathLen parts
    refine ⟨shiftParts maxPathLen parts, hsuffix, ?_⟩
    rw [truncateFromRoot, keyOf_of_ne_nil h hne, split_join h hne,
      keyOf_of_ne_nil (h.of_subset hsuffix.subset) (shiftParts_ne_nil _ hne)]

theorem truncatedKey_of_le {key : JsString} (h : key.length ≤ maxPathLen) :
    truncatedKey key = key := if_pos h

/-! ### The loop -/

theorem foldl_largest_mem : ∀ (gs : List PathGroup) (g : PathGroup),
    gs.foldl (fun a b => if a.members.length < b.members.length then b else a) g ∈ g :: gs
  | [], _ => List.mem_singleton_self _
  | b :: gs, g => by
    rw [List.foldl_cons]
    have h := foldl_largest_mem gs (if g.members.length < b.members.length then b else g)
    rcases List.mem_cons.mp h with h | h
    · rw [h]
      split
      · exact List.mem_cons_of_mem _ List.mem_cons_self
      · exact List.mem_cons_self
    · exact List.mem_cons_of_mem _ (List.mem_cons_of_mem _ h)

theorem largest_mem {gs : List PathGroup} {g : PathGroup} (h : largest gs = some g) : g ∈ gs := by
  cases gs with
  | nil => cases h
  | cons a gs =>
    cases h
    exact foldl_largest_mem gs a

/-- How many directories a file is in. -/
def height (d : CommitDiff) : ℕ := (split d.path.text).length - 1

/-- A group that the loop splits is one of the groups, with a file further
down. -/
theorem toSplit_facts {groups : List PathGroup} {g : PathGroup}
    (h : largest (groups.filter splittable) = some g) :
    groups.Perm (g :: groups.erase g) ∧ ∃ d ∈ g.members, g.depth < height d := by
  obtain ⟨hmem, hsplit⟩ := List.mem_filter.mp (largest_mem h)
  obtain ⟨d, hd, hlt⟩ := List.any_eq_true.mp hsplit
  exact ⟨List.perm_cons_erase hmem, d, hd, of_decide_eq_true hlt⟩

/-- The loop does nothing but split groups. -/
theorem splitLoop_run (target : ℕ) : ∀ {fuel : ℕ} {groups ended : List PathGroup},
    splitLoop target fuel groups = some ended →
      Relation.ReflTransGen (Splits directories) groups ended
  | fuel + 1, groups, ended, h => by
    unfold splitLoop at h
    split at h
    · split at h
      · cases h
        exact .refl
      · next g hg =>
        obtain ⟨hperm, -⟩ := toSplit_facts hg
        exact .head (.split hperm) (splitLoop_run target h)
    · cases h
      exact .refl

/-- The loop ends, for it takes up depth with every split. -/
theorem splitLoop_ends (target : ℕ) : ∀ {fuel : ℕ} {groups : List PathGroup},
    work height groups < fuel → ∃ ended, splitLoop target fuel groups = some ended
  | fuel + 1, groups, hfuel => by
    unfold splitLoop
    split
    · split
      · exact ⟨groups, rfl⟩
      · next g hg =>
        obtain ⟨hperm, hdeep⟩ := toSplit_facts hg
        have hless := work_split_lt height (keyAt (g.depth + 1)) hperm hdeep
        exact splitLoop_ends target (by omega)
    · exact ⟨groups, rfl⟩

theorem splitLoop_mono (target : ℕ) : ∀ {fuel more : ℕ} {groups ended : List PathGroup},
    splitLoop target fuel groups = some ended → fuel ≤ more →
      splitLoop target more groups = some ended
  | fuel + 1, 0, _, _, _, hle => by omega
  | fuel + 1, more + 1, groups, ended, h, hle => by
    unfold splitLoop at h ⊢
    split
    · next hlt =>
      rw [if_pos hlt] at h
      split
      · next hnone => rwa [hnone] at h
      · next g hg =>
        rw [hg] at h
        exact splitLoop_mono target h (by omega)
    · next hge => rwa [if_neg hge] at h

/-- The loop ends with a partition of the files by their directories. -/
theorem isPartition_splitGroups {fuel n : ℕ} {diffs : List CommitDiff} {groups : List PathGroup}
    (h : splitGroups fuel diffs n = some groups) : IsPartition directories diffs groups :=
  (isPartition_groupAt (H := directories) 1 diffs).run (splitLoop_run _ h)

/-! ### Names and directories -/

/-- A group is shown by its directory if it has no compact form, or not alone. -/
def ShownByDirectory (entries : List Entry) (e : Entry) : Prop :=
  ∀ compact, compactOf e = some compact →
    (entries.filter fun e' => decide (compactOf e' = some compact)).length ≠ 1

/-- No two of the directories that are shown become one when a long one is
cut. -/
def DirectoriesApart (entries : List Entry) : Prop :=
  entries.Pairwise fun e e' => ShownByDirectory entries e → ShownByDirectory entries e' →
    maxPathLen < e.key.length ∨ maxPathLen < e'.key.length →
      truncatedKey e.key ≠ truncatedKey e'.key

/-- What is shown of one of the entries. -/
def shown (entries : List Entry) (e : Entry) : JsString :=
  pathOf (entries.map candidate) (candidate e)

theorem endsInSlash_dirPath (key : JsString) : endsInSlash (dirPath key) = true := by
  unfold dirPath
  split
  · assumption
  · rw [endsInSlash, List.getLast?_append_of_ne_nil _ (List.cons_ne_nil _ _)]
    rfl

/-- A compact form ends in the name of a file. -/
theorem compactOf_facts {e : Entry} {compact : JsString} (h : compactOf e = some compact) :
    compact ≠ [] ∧ endsInSlash compact = false := by
  unfold compactOf at h
  split at h
  · next p _ =>
    split at h
    · next hp =>
      have hlast : (split p.text).getLastD [] ∈ split p.text := by
        rw [List.getLastD_eq_getLast?, List.getLast?_eq_some_getLast (split_ne_nil _)]
        exact List.getLast_mem _
      have hslash := slash_notMem_of_mem_split hlast
      have hname := ((p.proper.resolve_left hp.2) _ hlast).1
      simp only [compactName] at h
      generalize (split p.text).getLastD [] = filename at h hslash hname
      have hfile : filename ≠ [] ∧ endsInSlash filename = false :=
        ⟨hname, endsInSlash_of_notMem hslash⟩
      have hparent (parent : JsString) :
          parent ++ slash :: filename ≠ [] ∧ endsInSlash (parent ++ slash :: filename) = false := by
        refine ⟨by simp, ?_⟩
        rw [List.append_cons, endsInSlash_append hname, hfile.2]
      split_ifs at h <;> cases h
      · exact hparent _
      · exact hfile
      · exact hfile
    · cases h
  · cases h

theorem counts_map_candidate (entries : List Entry) (compact : JsString) :
    counts (entries.map candidate) compact =
      (entries.filter fun e => decide (compactOf e = some compact)).length := by
  rw [counts, List.filter_map, List.length_map]
  rfl

theorem shown_of_directory {entries : List Entry} {e : Entry} (h : ShownByDirectory entries e) :
    shown entries e = dirPath (truncatedKey e.key) := by
  unfold shown pathOf
  split
  · next compact hcompact => exact if_neg fun hc => h compact hcompact (counts_map_candidate _ _ ▸ hc.2)
  · rfl

theorem shown_of_compact {entries : List Entry} {e : Entry} (h : ¬ ShownByDirectory entries e) :
    ∃ compact, compactOf e = some compact ∧
      (entries.filter fun e' => decide (compactOf e' = some compact)).length = 1 ∧
      shown entries e = compact := by
  simp only [ShownByDirectory, not_forall, not_not] at h
  obtain ⟨compact, hcompact, halone⟩ := h
  refine ⟨compact, hcompact, halone, ?_⟩
  have hcandidate : (candidate e).compact = some compact := hcompact
  rw [shown, pathOf, hcandidate]
  exact if_pos ⟨(compactOf_facts hcompact).1, (counts_map_candidate _ _).trans halone⟩

/-- The only entry of a compact form is found by it. -/
theorem eq_of_alone {entries : List Entry} {compact : JsString} {e e' : Entry}
    (halone : (entries.filter fun e => decide (compactOf e = some compact)).length = 1)
    (he : e ∈ entries) (he' : e' ∈ entries) (hc : compactOf e = some compact)
    (hc' : compactOf e' = some compact) : e = e' := by
  obtain ⟨a, ha⟩ := List.length_eq_one_iff.mp halone
  have hmem : ∀ {e : Entry}, e ∈ entries → compactOf e = some compact → e = a := by
    intro e he hc
    have hin : e ∈ entries.filter fun e => decide (compactOf e = some compact) :=
      List.mem_filter.mpr ⟨he, decide_eq_true hc⟩
    rw [ha] at hin
    exact List.mem_singleton.mp hin
  rw [hmem he hc, hmem he' hc']

/-- A slash at the end tells directories from names. -/
theorem endsInSlash_shown_iff {entries : List Entry} {e : Entry} :
    endsInSlash (shown entries e) = true ↔ ShownByDirectory entries e := by
  by_cases h : ShownByDirectory entries e
  · rw [shown_of_directory h]
    exact iff_of_true (endsInSlash_dirPath _) h
  · obtain ⟨compact, hcompact, -, hshown⟩ := shown_of_compact h
    rw [hshown, (compactOf_facts hcompact).2]
    exact iff_of_false Bool.false_ne_true h

/-- Two directories are shown alike if they are cut alike. -/
theorem shown_eq_iff_of_directories {entries : List Entry} {e e' : Entry}
    {parts parts' : List JsString} (hd : ShownByDirectory entries e)
    (hd' : ShownByDirectory entries e') (hp : Proper parts) (hkey : e.key = keyOf parts)
    (hp' : Proper parts') (hkey' : e'.key = keyOf parts') :
    shown entries e = shown entries e' ↔ truncatedKey e.key = truncatedKey e'.key := by
  obtain ⟨rest, hrest, ht⟩ := truncatedKey_keyOf hp
  obtain ⟨rest', hrest', ht'⟩ := truncatedKey_keyOf hp'
  rw [shown_of_directory hd, shown_of_directory hd', hkey, hkey', ht, ht']
  refine ⟨fun h => ?_, fun h => by rw [h]⟩
  rw [dirPath_keyOf_inj (hp.of_subset hrest.subset) (hp'.of_subset hrest'.subset) h]

/-- Entries with different keys are shown alike only as directories that fall
together when they are cut. -/
theorem shown_ne_iff {entries : List Entry} {e e' : Entry} {parts parts' : List JsString}
    (he : e ∈ entries) (he' : e' ∈ entries) (hne : e.key ≠ e'.key)
    (hp : Proper parts) (hkey : e.key = keyOf parts)
    (hp' : Proper parts') (hkey' : e'.key = keyOf parts') :
    shown entries e ≠ shown entries e' ↔
      (ShownByDirectory entries e → ShownByDirectory entries e' →
        maxPathLen < e.key.length ∨ maxPathLen < e'.key.length →
          truncatedKey e.key ≠ truncatedKey e'.key) := by
  constructor
  · intro h hd hd' _
    exact mt (shown_eq_iff_of_directories hd hd' hp hkey hp' hkey').mpr h
  · intro h heq
    have hkind : ShownByDirectory entries e ↔ ShownByDirectory entries e' := by
      rw [← endsInSlash_shown_iff, ← endsInSlash_shown_iff, heq]
    by_cases hd : ShownByDirectory entries e
    · have hd' := hkind.mp hd
      have hsame := (shown_eq_iff_of_directories hd hd' hp hkey hp' hkey').mp heq
      -- short keys are not cut, and they differ
      by_cases hlong : maxPathLen < e.key.length ∨ maxPathLen < e'.key.length
      · exact h hd hd' hlong hsame
      · rw [not_or, Nat.not_lt, Nat.not_lt] at hlong
        rw [truncatedKey_of_le hlong.1, truncatedKey_of_le hlong.2] at hsame
        exact hne hsame
    · obtain ⟨compact, hc, halone, hshown⟩ := shown_of_compact hd
      obtain ⟨compact', hc', -, hshown'⟩ := shown_of_compact (mt hkind.mpr hd)
      have hsame : compact' = compact := by rw [← hshown, ← hshown', heq]
      rw [hsame] at hc'
      exact hne (congrArg Entry.key (eq_of_alone halone he he' hc hc'))

/-! ### What is shown of a partition -/

theorem exists_map_of_perm {α β : Type} {f : α → β} {ys : List β} {xs : List α}
    (h : ys.Perm (xs.map f)) : ∃ xs' : List α, ys = xs'.map f ∧ xs'.Perm xs :=
  (congrFun₂ (List.eq_map_comp_perm f) ys xs).mpr h

/-- The groups that are kept, as groups. -/
theorem chosen_eq_map (n : ℕ) (groups : List PathGroup) :
    ∃ kept dropped : List PathGroup, (kept ++ dropped).Perm groups ∧
      chosen n groups = kept.map aggregate ∧ (groups.length ≤ n → dropped = []) := by
  have hperm : ((groups.map aggregate).mergeSort changedMore).Perm (groups.map aggregate) :=
    List.mergeSort_perm _ _
  obtain ⟨sorted, hsorted, hgroups⟩ := exists_map_of_perm hperm
  refine ⟨sorted.take n, sorted.drop n, ?_, ?_, fun hle => ?_⟩
  · rwa [List.take_append_drop]
  · rw [chosen, hsorted, List.map_take]
  · rw [List.drop_eq_nil_iff, hgroups.length_eq]
    exact hle

theorem summaries_perm (n : ℕ) (groups : List PathGroup) :
    (summaries n groups).Perm ((chosen n groups).map fun e =>
      ⟨shown (chosen n groups) e, e.added, e.removed⟩) := by
  refine (List.mergeSort_perm _ _).trans ?_
  rw [List.map_map]
  exact List.Perm.refl _

section Partition

variable {diffs : List CommitDiff} {groups : List PathGroup}

theorem keys_proper (h : IsPartition directories diffs groups) {g : PathGroup} (hg : g ∈ groups) :
    ∃ parts, Proper parts ∧ (aggregate g).key = keyOf parts := by
  obtain ⟨hne, hkeys⟩ := h.keyed g hg
  obtain ⟨d, hd⟩ := List.exists_mem_of_ne_nil _ hne
  exact ⟨d.path.dirs.take g.depth, d.path.proper_dirs.of_subset (List.take_subset _ _),
    (hkeys d hd).symm⟩

/-- **The paths shown are distinct** exactly if the directories stay apart. -/
theorem nodup_summaries_iff (h : IsPartition directories diffs groups) (n : ℕ) :
    ((summaries n groups).map PrimaryPath.path).Nodup ↔ DirectoriesApart (chosen n groups) := by
  obtain ⟨kept, dropped, hperm, hchosen, -⟩ := chosen_eq_map n groups
  have hparts := h.perm hperm.symm
  have hkeys : (chosen n groups).Pairwise fun e e' => e.key ≠ e'.key := by
    have hnodup := hparts.keys_nodup
    rw [List.map_append] at hnodup
    rw [hchosen, List.pairwise_map]
    exact List.pairwise_map.mp (List.nodup_append.mp hnodup).1
  have hproper : ∀ e ∈ chosen n groups, ∃ parts, Proper parts ∧ e.key = keyOf parts := by
    intro e he
    rw [hchosen] at he
    obtain ⟨g, hg, rfl⟩ := List.mem_map.mp he
    exact keys_proper hparts (List.mem_append_left _ hg)
  have hiff : ∀ {e e' : Entry}, e ∈ chosen n groups → e' ∈ chosen n groups → e.key ≠ e'.key →
      (shown (chosen n groups) e ≠ shown (chosen n groups) e' ↔ _) := fun he he' hne => by
    obtain ⟨parts, hp, hkey⟩ := hproper _ he
    obtain ⟨parts', hp', hkey'⟩ := hproper _ he'
    exact shown_ne_iff he he' hne hp hkey hp' hkey'
  rw [((summaries_perm n groups).map PrimaryPath.path).nodup_iff, List.map_map, List.Nodup,
    List.pairwise_map]
  constructor
  · intro hnodup
    exact (hkeys.and hnodup).imp_of_mem fun he he' hp => (hiff he he' hp.1).mp hp.2
  · intro hapart
    exact (hkeys.and hapart).imp_of_mem fun he he' hp => (hiff he he' hp.1).mpr hp.2

/-- An entry adds up the lines of a part of the files. -/
def SumsUp (part : List CommitDiff) (e : PrimaryPath) : Prop :=
  e.added = (part.map CommitDiff.linesAdded).sum ∧
    e.removed = (part.map CommitDiff.linesRemoved).sum

/-- **What is shown sums up different parts of the files**, all of them if
there are not too many groups. -/
theorem sumsUp_summaries (h : IsPartition directories diffs groups) (n : ℕ) :
    ∃ (parts : List (List CommitDiff)) (rest : List CommitDiff),
      List.Forall₂ SumsUp parts (summaries n groups) ∧ (parts.flatten ++ rest).Perm diffs ∧
      (groups.length ≤ n → rest = []) := by
  obtain ⟨kept, dropped, hperm, hchosen, hall⟩ := chosen_eq_map n groups
  have hsummaries := summaries_perm n groups
  rw [hchosen, List.map_map] at hsummaries
  obtain ⟨ordered, hordered, hkept⟩ := exists_map_of_perm hsummaries
  refine ⟨ordered.map Group.members, held dropped, ?_, ?_, fun hle => ?_⟩
  · rw [hordered, List.forall₂_map_left_iff, List.forall₂_map_right_iff, List.forall₂_same]
    exact fun g _ => ⟨rfl, rfl⟩
  · rw [← List.flatMap_def]
    have hheld : (held ordered ++ held dropped).Perm (held (kept ++ dropped)) := by
      rw [held_append]
      exact (held_perm hkept).append_right _
    exact hheld.trans ((held_perm hperm).trans h.held)
  · rw [hall hle]
    rfl

end Partition

/-! ### Short directories -/

theorem length_join_take_le : ∀ (parts : List JsString) (k : ℕ),
    (join (parts.take k)).length ≤ (join parts).length
  | [], k => by rw [List.take_nil]
  | _ :: _, 0 => Nat.zero_le _
  | [part], k + 1 => by rw [List.take_of_length_le (by simp)]
  | part :: next :: parts, 1 => by simp [join]
  | part :: next :: parts, k + 2 => by
    have ih := length_join_take_le (next :: parts) (k + 1)
    rw [List.take_succ_cons] at ih
    rw [List.take_succ_cons, List.take_succ_cons, join_cons_cons, join_cons_cons,
      List.length_append, List.length_append, List.length_cons, List.length_cons]
    omega

/-- Nothing is cut if the files lie in directories that fit. -/
theorem directoriesApart_of_short {diffs : List CommitDiff} {groups : List PathGroup}
    (h : IsPartition directories diffs groups)
    (short : ∀ d ∈ diffs, (join d.path.dirs).length ≤ maxPathLen) (n : ℕ) :
    DirectoriesApart (chosen n groups) := by
  obtain ⟨kept, dropped, hperm, hchosen, -⟩ := chosen_eq_map n groups
  have hkey : ∀ e ∈ chosen n groups, e.key.length ≤ maxPathLen := by
    intro e he
    rw [hchosen] at he
    obtain ⟨g, hg, rfl⟩ := List.mem_map.mp he
    have hg := hperm.mem_iff.mp (List.mem_append_left dropped hg)
    obtain ⟨hne, hkeys⟩ := h.keyed g hg
    obtain ⟨d, hd⟩ := List.exists_mem_of_ne_nil _ hne
    have hdiff : d ∈ diffs := h.held.mem_iff.mp (List.mem_flatMap.mpr ⟨g, hg, hd⟩)
    have hle := (length_join_take_le d.path.dirs g.depth).trans (short d hdiff)
    have haggregate : (aggregate g).key = keyOf (d.path.dirs.take g.depth) := (hkeys d hd).symm
    rw [haggregate, keyOf]
    split
    · decide
    · exact hle
  refine List.pairwise_of_forall_mem_list fun e he e' he' _ _ hlong => ?_
  rcases hlong with hlong | hlong
  · exact absurd (hkey e he) (Nat.not_le.mpr hlong)
  · exact absurd (hkey e' he') (Nat.not_le.mpr hlong)

/-! ### The summary of a commit -/

/-- The entries are a summary of the files, which the loop has put into these
groups. -/
structure Summary (diffs : List CommitDiff) (n : ℕ) (groups : List PathGroup)
    (entries : List PrimaryPath) : Prop where
  atMost : entries.length ≤ n
  distinct : (entries.map PrimaryPath.path).Nodup
  sums : ∃ parts : List (List CommitDiff), List.Forall₂ SumsUp parts entries ∧
    parts.Pairwise List.Disjoint ∧ parts.flatten.Subperm diffs
  totals : groups.length ≤ n →
    (entries.map PrimaryPath.added).sum = (diffs.map CommitDiff.linesAdded).sum ∧
      (entries.map PrimaryPath.removed).sum = (diffs.map CommitDiff.linesRemoved).sum

/-- The function ends, and with a summary. -/
def Summarises (diffs : List CommitDiff) (n : ℕ) : Prop :=
  ∃ (groups : List PathGroup) (entries : List PrimaryPath) (bound : ℕ), ∀ fuel ≥ bound,
    splitGroups fuel diffs n = some groups ∧ computePrimaryPaths fuel diffs n = some entries ∧
      Summary diffs n groups entries

theorem length_summaries_le (n : ℕ) (groups : List PathGroup) : (summaries n groups).length ≤ n := by
  rw [(summaries_perm n groups).length_eq, List.length_map]
  exact List.length_take_le _ _

theorem sum_of_sumsUp : ∀ {parts : List (List CommitDiff)} {entries : List PrimaryPath},
    List.Forall₂ SumsUp parts entries →
      (entries.map PrimaryPath.added).sum = (parts.flatten.map CommitDiff.linesAdded).sum ∧
        (entries.map PrimaryPath.removed).sum = (parts.flatten.map CommitDiff.linesRemoved).sum
  | _, _, .nil => ⟨rfl, rfl⟩
  | _, _, .cons h hs => by
    obtain ⟨hadded, hremoved⟩ := sum_of_sumsUp hs
    simp [hadded, hremoved, h.1, h.2]

/-- What is shown of the groups of a run is a summary, if the directories stay
apart. -/
theorem summary_summaries {diffs : List CommitDiff} {groups : List PathGroup}
    (h : IsPartition directories diffs groups) (distinct : (diffs.map CommitDiff.path).Nodup)
    {n : ℕ} (hapart : DirectoriesApart (chosen n groups)) :
    Summary diffs n groups (summaries n groups) := by
  obtain ⟨parts, rest, hsums, hperm, hall⟩ := sumsUp_summaries h n
  refine ⟨length_summaries_le n groups, (nodup_summaries_iff h n).mpr hapart, ?_, fun hle => ?_⟩
  · have hnodup : parts.flatten.Nodup := by
      have hboth := hperm.nodup_iff.mpr (List.Nodup.of_map _ distinct)
      exact (List.nodup_append.mp hboth).1
    exact ⟨parts, hsums, (List.nodup_flatten.mp hnodup).2,
      (List.sublist_append_left parts.flatten rest).subperm.trans hperm.subperm⟩
  · rw [hall hle, List.append_nil] at hperm
    obtain ⟨hadded, hremoved⟩ := sum_of_sumsUp hsums
    exact ⟨hadded.trans (hperm.map _).sum_eq, hremoved.trans (hperm.map _).sum_eq⟩

theorem computePrimaryPaths_eq (fuel : ℕ) (diffs : List CommitDiff) (n : ℕ)
    {groups : List PathGroup} (h : splitGroups fuel diffs n = some groups) :
    computePrimaryPaths fuel diffs n = some (summaries n groups) := by
  unfold computePrimaryPaths
  split
  · next hempty =>
    rw [hempty] at h
    cases fuel with
    | zero => cases h
    | succ fuel =>
      rw [splitGroups, List.length_nil, Nat.min_zero, splitLoop, if_neg (Nat.not_lt_zero _)] at h
      cases h
      simp [seed, groupAt, summaries, chosen]
  · rw [h]
    rfl

/-- **A commit is summed up** as it should be exactly if no two of the
directories that are shown become one when a long one is cut. -/
theorem computePrimaryPaths_summarises_iff (diffs : List CommitDiff)
    (distinct : (diffs.map CommitDiff.path).Nodup) (n : ℕ) :
    Summarises diffs n ↔ ∀ fuel groups, splitGroups fuel diffs n = some groups →
      DirectoriesApart (chosen n groups) := by
  constructor
  · rintro ⟨groups', entries, bound, hrun⟩ fuel groups hgroups
    have hpart := isPartition_splitGroups hgroups
    obtain ⟨hgroups', hentries, hsummary⟩ := hrun (max fuel bound) (Nat.le_max_right _ _)
    have hmore := splitLoop_mono _ hgroups (Nat.le_max_left fuel bound)
    have hsame : groups' = groups := Option.some_inj.mp (hgroups'.symm.trans hmore)
    rw [hsame] at hgroups'
    have hshown : entries = summaries n groups :=
      Option.some_inj.mp (hentries.symm.trans (computePrimaryPaths_eq _ diffs n hgroups'))
    have hdistinct := hsummary.distinct
    rw [hshown] at hdistinct
    exact (nodup_summaries_iff hpart n).mp hdistinct
  · intro hapart
    obtain ⟨groups, hgroups⟩ := splitLoop_ends (min n diffs.length) (Nat.lt_succ_self
      (work height (seed diffs)))
    have hsummary := summary_summaries (isPartition_splitGroups hgroups) distinct
      (hapart _ groups hgroups)
    refine ⟨groups, summaries n groups, work height (seed diffs) + 1, fun fuel hfuel => ?_⟩
    have hmore : splitGroups fuel diffs n = some groups := splitLoop_mono _ hgroups hfuel
    exact ⟨hmore, computePrimaryPaths_eq fuel diffs n hmore, hsummary⟩

/-- Three files in two directories, and a limit that does not cut. -/
def threeFiles : List CommitDiff :=
  [⟨⟨[97, 47, 120], by decide⟩, 1, 0⟩, ⟨⟨[97, 47, 98, 47, 121], by decide⟩, 2, 1⟩,
    ⟨⟨[99], by decide⟩, 0, 4⟩]

theorem computePrimaryPaths_summarises_iff_threeFiles : Summarises threeFiles 3 :=
  (computePrimaryPaths_summarises_iff threeFiles (by decide) 3).mpr fun _ _ hgroups =>
    directoriesApart_of_short (isPartition_splitGroups hgroups) (by decide) 3

/-- The directory `src` in one whose name is this letter, twenty times. -/
def longDirectory (letter : ℕ) : JsString := List.replicate 20 letter ++ [47, 115, 114, 99]

/-- Two files in each of two such directories. -/
def sameEndings : List CommitDiff :=
  [⟨⟨longDirectory 97 ++ [47, 120], by decide⟩, 1, 0⟩,
    ⟨⟨longDirectory 97 ++ [47, 121], by decide⟩, 1, 0⟩,
    ⟨⟨longDirectory 98 ++ [47, 120], by decide⟩, 1, 0⟩,
    ⟨⟨longDirectory 98 ++ [47, 121], by decide⟩, 1, 0⟩]

/-- The groups in which the loop ends. -/
def twoDirectories : List PathGroup :=
  [⟨longDirectory 97, 2, sameEndings.take 2⟩, ⟨longDirectory 98, 2, sameEndings.drop 2⟩]

/-- Both are cut to `src/`. -/
theorem summaries_twoDirectories : summaries 3 twoDirectories =
    [⟨[115, 114, 99, 47], 2, 0⟩, ⟨[115, 114, 99, 47], 2, 0⟩] := by
  have hchosen : chosen 3 twoDirectories = twoDirectories.map aggregate := by
    rw [chosen, List.mergeSort_of_pairwise (by decide)]
    rfl
  rw [summaries, hchosen, List.mergeSort_of_pairwise (by decide)]
  decide

theorem not_computePrimaryPaths_summarises :
    ¬ ∀ (diffs : List CommitDiff) (n : ℕ), (diffs.map CommitDiff.path).Nodup → 1 ≤ n →
      Summarises diffs n := by
  intro h
  obtain ⟨groups, entries, bound, hrun⟩ := h sameEndings 3 (by decide) (by decide)
  obtain ⟨-, hentries, hsummary⟩ := hrun (max 8 bound) (Nat.le_max_right _ _)
  have hgroups : splitGroups 8 sameEndings 3 = some twoDirectories := by decide +kernel
  have hmore : splitGroups (max 8 bound) sameEndings 3 = some twoDirectories :=
    splitLoop_mono _ hgroups (Nat.le_max_left 8 bound)
  rw [computePrimaryPaths_eq _ _ _ hmore, summaries_twoDirectories] at hentries
  cases hentries
  exact absurd hsummary.distinct (by decide)

end PrimaryPaths
end Gitdot
