/-
# The rendered diff of a file and its line counts

`renderPair` turns the two versions of a file into a `DiffEntry`. Where both
are there it counts the changed lines of the merged hunks; where one is
missing it counts the parts of the other between newlines.

The first count adds up: what is added less what is removed is the difference
of the lines of the two texts. The second one takes a newline at the end for
the start of another line, and counts a line in an empty file that is created
but none in one that is deleted (`lines_balance_iff`).

Key definitions: `DiffEntry`, `renderPair`, `lineCount`, `Balanced`,
`CountsFinalNewline`.
Key theorems: `length_splitOnNewline`, `lines_balance_iff`,
`not_lines_balance`.
-/
import Gitdot.Web.Diff

namespace Gitdot

open Lib

/-! ### The code -/

structure RepositoryBlob where
  commitSha : String
  path : String
  sha : String
  content : List Char
  encoding : String

structure RepositoryBlobPair where
  path : String
  old : Option RepositoryBlob
  new : Option RepositoryBlob

inductive DiffSide where
  | left
  | right
  deriving DecidableEq

/-- `DiffSpans`, with the spans that shiki renders of type `σ`. -/
inductive DiffSpans (σ : Type) where
  | split (leftSpans rightSpans : σ) (hunks : List DiffHunk)
  | unilateral (spans : σ) (hunks : List DiffHunk) (side : DiffSide)
  | created (spans : σ)
  | deleted
  | noChange

structure DiffEntry (σ : Type) where
  path : String
  old : Option RepositoryBlob
  new : Option RepositoryBlob
  spans : DiffSpans σ
  linesAdded : ℕ
  linesRemoved : ℕ

/-- `split("\\n")`. -/
def splitOnNewline : List Char → List (List Char)
  | [] => [[]]
  | c :: text =>
    if c = '\n' then [] :: splitOnNewline text
    else
      match splitOnNewline text with
      | [] => [[c]]
      | part :: parts => (c :: part) :: parts

section

variable {σ : Type} (structuredPatch : List Char → List Char → List PatchHunk)
  (renderSpans : String → List Char → DiffSide → Finset ℕ → σ)

/-- `renderPair`. `renderSpans` is what shiki renders of a text in the language
that the path has, with the changed lines on that side. `none` is an
exception. -/
def renderPair (pair : RepositoryBlobPair) : Option (DiffEntry σ) :=
  let entry (spans : DiffSpans σ) (linesAdded linesRemoved : ℕ) : DiffEntry σ :=
    ⟨pair.path, pair.old, pair.new, spans, linesAdded, linesRemoved⟩
  match pair.old.map RepositoryBlob.content, pair.new.map RepositoryBlob.content with
  | some left, some right => do
    let hunks ← diffFiles structuredPatch left right
    if hunks.length = 0 then return entry .noChange 0 0
    let allRemovedLines := unionOf DiffHunk.removedLines hunks
    let allAddedLines := unionOf DiffHunk.addedLines hunks
    let linesAdded := allAddedLines.card
    let linesRemoved := allRemovedLines.card
    let isAllAdditions := allRemovedLines.card = 0
    let isAllRemovals := allAddedLines.card = 0
    if isAllAdditions ∨ isAllRemovals then
      let side := if isAllAdditions then DiffSide.right else .left
      let content := if isAllAdditions then right else left
      let changedLines := if isAllAdditions then allAddedLines else allRemovedLines
      let spans := renderSpans pair.path content side changedLines
      return entry (.unilateral spans hunks side) linesAdded linesRemoved
    let leftSpans := renderSpans pair.path left .left allRemovedLines
    let rightSpans := renderSpans pair.path right .right allAddedLines
    return entry (.split leftSpans rightSpans hunks) linesAdded linesRemoved
  | left, none =>
    -- `left ? .. : 0`, where the empty string counts as false
    let linesRemoved := match left with
      | none | some [] => 0
      | some (c :: text) => (splitOnNewline (c :: text)).length
    some (entry .deleted 0 linesRemoved)
  | none, some right =>
    let lineCount := (splitOnNewline right).length
    let spans := renderSpans pair.path right .right (Finset.range lineCount)
    some (entry (.created spans) lineCount 0)

/-- `renderDiff`. -/
def renderDiff (pairs : List RepositoryBlobPair) : Option (List (DiffEntry σ)) :=
  pairs.mapM (renderPair structuredPatch renderSpans)

end

/-! ### Lines -/

/-- The lines of a version: those that a newline ends and an unfinished last
one, none of a version that is missing. -/
def lineCount (blob : Option RepositoryBlob) : ℕ :=
  blob.elim 0 fun b => (splitLines b.content).length

/-- What is added less what is removed is the difference in lines. -/
def Balanced {σ : Type} (pair : RepositoryBlobPair) (entry : DiffEntry σ) : Prop :=
  (entry.linesAdded : ℤ) - entry.linesRemoved = lineCount pair.new - lineCount pair.old

/-- A created or deleted file whose parts between newlines are more than its
lines. -/
def CountsFinalNewline (pair : RepositoryBlobPair) : Prop :=
  match pair.old, pair.new with
  | some old, none => old.content.getLast? = some '\n'
  | none, some new => new.content = [] ∨ new.content.getLast? = some '\n'
  | _, _ => False

instance (pair : RepositoryBlobPair) : Decidable (CountsFinalNewline pair) := by
  unfold CountsFinalNewline
  split <;> infer_instance

theorem splitOnNewline_ne_nil (text : List Char) : splitOnNewline text ≠ [] := by
  cases text with
  | nil => simp [splitOnNewline]
  | cons c text =>
    rw [splitOnNewline]
    split_ifs
    · simp
    · split <;> simp

theorem splitLines_ne_nil {text : List Char} (h : text ≠ []) : splitLines text ≠ [] := by
  cases text with
  | nil => exact absurd rfl h
  | cons c text =>
    rw [splitLines]
    split_ifs
    · simp
    · split <;> simp

/-- The parts between newlines are the lines, and one more unless the last line
is unfinished. -/
theorem length_splitOnNewline : ∀ text : List Char,
    (splitOnNewline text).length =
      (splitLines text).length + if text = [] ∨ text.getLast? = some '\n' then 1 else 0
  | [] => rfl
  | c :: text => by
    have ih := length_splitOnNewline text
    by_cases hc : c = '\n'
    · subst hc
      cases text with
      | nil => rfl
      | cons d text =>
        rw [splitOnNewline, splitLines, if_pos rfl, if_pos rfl, List.length_cons, List.length_cons, ih]
        simp only [reduceCtorEq, false_or, List.getLast?_cons_cons]
        omega
    · cases hparts : splitOnNewline text with
      | nil => exact absurd hparts (splitOnNewline_ne_nil text)
      | cons part parts =>
        cases text with
        | nil => simp [splitOnNewline, splitLines, hc]
        | cons d text =>
          cases hlines : splitLines (d :: text) with
          | nil => exact absurd hlines (splitLines_ne_nil (List.cons_ne_nil d text))
          | cons line lines =>
            rw [hparts, hlines] at ih
            rw [splitOnNewline, splitLines, if_neg hc, if_neg hc, hparts, hlines]
            simp only [reduceCtorEq, false_or, List.getLast?_cons_cons, List.length_cons] at ih ⊢
            exact ih

/-! ### Whether the counts add up -/

section

variable {σ : Type} {structuredPatch : List Char → List Char → List PatchHunk}
  {renderSpans : String → List Char → DiffSide → Finset ℕ → σ}

/-- Two versions: the changed lines of the hunks. -/
theorem renderPair_both (renderSpans : String → List Char → DiffSide → Finset ℕ → σ)
    (pair : RepositoryBlobPair) {left right : List Char}
    (hl : pair.old.map RepositoryBlob.content = some left)
    (hr : pair.new.map RepositoryBlob.content = some right) {hunks : List DiffHunk}
    (hhunks : diffFiles structuredPatch left right = some hunks) :
    ∃ entry, renderPair structuredPatch renderSpans pair = some entry ∧
      entry.linesAdded = (unionOf DiffHunk.addedLines hunks).card ∧
      entry.linesRemoved = (unionOf DiffHunk.removedLines hunks).card := by
  unfold renderPair
  simp only [hl, hr, hhunks, Option.bind_eq_bind, Option.bind_some]
  by_cases hnil : hunks.length = 0
  · rw [if_pos hnil, List.length_eq_zero_iff.mp hnil]
    exact ⟨_, rfl, rfl, rfl⟩
  · rw [if_neg hnil]
    split_ifs <;> exact ⟨_, rfl, rfl, rfl⟩

/-- **When the counts add up.** For every pair of versions, if jsdiff's patch is
correct, the counts balance exactly unless the file is created or deleted with
a newline at its end, or created empty. -/
theorem lines_balance_iff (structuredPatch : List Char → List Char → List PatchHunk)
    (renderSpans : String → List Char → DiffSide → Finset ℕ → σ) (pair : RepositoryBlobPair)
    (h : ∀ old new, pair.old = some old → pair.new = some new →
      CorrectPatch (splitLines old.content) (splitLines new.content) 0 0
        (structuredPatch old.content new.content)) :
    ∃ entry, renderPair structuredPatch renderSpans pair = some entry ∧
      (Balanced pair entry ↔ ¬ CountsFinalNewline pair) := by
  obtain ⟨path, old, new⟩ := pair
  cases old with
  | some old =>
    cases new with
    | some new =>
      obtain ⟨hunks, hhunks, htrail, _, _⟩ := diffFiles_trail (h old new rfl rfl)
      obtain ⟨entry, hentry, hadded, hremoved⟩ :=
        renderPair_both renderSpans ⟨path, some old, some new⟩ rfl rfl hhunks
      have hbalance := htrail.balance
      refine ⟨entry, hentry, iff_of_true ?_ fun hno => hno⟩
      simp only [Balanced, lineCount, Option.elim_some, hadded, hremoved]
      omega
    | none =>
      refine ⟨_, rfl, ?_⟩
      have hcount := length_splitOnNewline old.content
      cases hold : old.content with
      | nil => simp [Balanced, CountsFinalNewline, lineCount, hold, splitLines]
      | cons c text =>
        simp only [hold, reduceCtorEq, false_or] at hcount
        simp only [Balanced, CountsFinalNewline, lineCount, hold, Option.elim_some, Option.elim_none]
        split_ifs at hcount with hlast
        · exact iff_of_false (by omega) (not_not.mpr hlast)
        · exact iff_of_true (by omega) hlast
  | none =>
    cases new with
    | some new =>
      refine ⟨_, rfl, ?_⟩
      have hcount := length_splitOnNewline new.content
      simp only [Balanced, CountsFinalNewline, lineCount, Option.elim_some, Option.elim_none]
      split_ifs at hcount with hlast
      · exact iff_of_false (by omega) (not_not.mpr hlast)
      · exact iff_of_true (by omega) hlast
    | none =>
      exact ⟨_, rfl, iff_of_true rfl fun hno => hno⟩

end

/-- A file that is created. -/
def newFile (content : List Char) : RepositoryBlobPair :=
  ⟨"a.txt", none, some ⟨"c0ffee", "a.txt", "beef", content, "utf-8"⟩⟩

/-- `a b c d` edited to `w x c d`. -/
def editedFile : RepositoryBlobPair :=
  ⟨"a.txt", some ⟨"c0ffee", "a.txt", "beef", "a\nb\nc\nd\n".toList, "utf-8"⟩,
    some ⟨"decade", "a.txt", "feed", "w\nx\nc\nd\n".toList, "utf-8"⟩⟩

theorem lines_balance_iff_editedFile :
    ∃ entry, renderPair (fun _ _ => zippedPatch) (fun _ _ _ _ => ()) editedFile = some entry ∧
      (Balanced editedFile entry ↔ ¬ CountsFinalNewline editedFile) :=
  lines_balance_iff _ _ _ fun old new hold hnew => by
    rw [← Option.some.inj hold, ← Option.some.inj hnew]
    exact correctPatch_zipped

/-- A new file `a` with a newline at its end counts two lines. -/
theorem not_lines_balance :
    ¬ ∀ (structuredPatch : List Char → List Char → List PatchHunk)
      (renderSpans : String → List Char → DiffSide → Finset ℕ → Unit) (pair : RepositoryBlobPair),
      (∀ old new, pair.old = some old → pair.new = some new →
        CorrectPatch (splitLines old.content) (splitLines new.content) 0 0
          (structuredPatch old.content new.content)) →
      ∃ entry, renderPair structuredPatch renderSpans pair = some entry ∧ Balanced pair entry := by
  intro h
  obtain ⟨entry, hentry, hbalanced⟩ := h (fun _ _ => []) (fun _ _ _ _ => ()) (newFile "a\n".toList)
    fun _ _ hold => by cases hold
  obtain rfl := Option.some.inj hentry
  have htwo : (splitOnNewline "a\n".toList).length = 2 := by decide
  have hone : (splitLines "a\n".toList).length = 1 := by decide
  have hcounts : ((splitOnNewline "a\n".toList).length : ℤ) - (0 : ℕ) =
      ((splitLines "a\n".toList).length : ℤ) - (0 : ℕ) := hbalanced
  rw [htwo, hone] at hcounts
  cases hcounts

end Gitdot
