/-
# The lines of a diff on the page

`DiffSplit` shows the hunks of a diff in two columns, `DiffUnified` in one,
where the removals of a change stand above its additions. Between two hunks
the hidden lines can be expanded. Each line on the page carries its numbers,
its type, in the split layout its side, and its tokens.

In either layout the numbers on one side increase down the page
(`RenderedDiff.pairwise_numbers`), so a side and a number name one line.

Key definitions: `LineSpan`, `DomLine`, `readLineNumber`, `readSide`,
`splitSection`, `unifiedSection`, `RenderedDiff`.
Key theorems: `above_renderHunks`, `RenderedDiff.pairwise_numbers`.
-/
import Gitdot.Server.World
import Gitdot.Web.Rendering

namespace Gitdot

open Lib

/-! ### Lines -/

/-- A `.diff-token`, with its `data-char-start` and `data-char-end`. -/
structure DiffToken where
  charStart : ℕ
  charEnd : ℕ
  deriving DecidableEq

/-- `data-line-type`. -/
inductive LineType where
  | sentinel
  | normal
  | added
  | removed
  deriving DecidableEq

/-- The element of a line as `renderSpans` leaves it. -/
structure LineSpan where
  lineNumber : ℕ
  lineType : LineType
  tokens : List DiffToken

/-- What `renderSpans` adds to the lines that shiki makes. -/
def lineSpans (side : DiffSide) (changedLines : Finset ℕ) (lines : List (List DiffToken)) :
    List LineSpan :=
  lines.mapIdx fun k tokens =>
    { lineNumber := k + 1
      lineType :=
        if k ∈ changedLines then (if side = .left then .removed else .added) else .normal
      tokens := tokens }

/-- The dataset of a `.diff-line` and the tokens in it. -/
structure DomLine where
  lineNumber : Option ℕ
  leftLineNumber : Option ℕ
  rightLineNumber : Option ℕ
  lineType : LineType
  side : Option CommentSide
  tokens : List DiffToken

def readLineNumber (line : DomLine) : Option ℕ :=
  match line.lineNumber with
  | some n => some n
  | none =>
    if line.lineType = .removed ∧ line.leftLineNumber.isSome then line.leftLineNumber
    else if line.rightLineNumber.isSome then line.rightLineNumber
    else line.leftLineNumber

def readSide (line : DomLine) : CommentSide :=
  match line.side with
  | some side => side
  | none => if line.lineType = .removed then .old else .new

/-! ### The split layout -/

/-- `DiffLine` of a span under `withSide`, or of the sentinel where there is no
line. -/
def splitLine (side : CommentSide) (spans : List LineSpan) (index : Option ℕ) : DomLine :=
  match index.bind fun i => spans[i]? with
  | some span => ⟨some span.lineNumber, none, none, span.lineType, some side, span.tokens⟩
  | none => ⟨none, none, none, .sentinel, some side, []⟩

section

variable (leftSpans rightSpans : List LineSpan)

/-- `renderChunks`: the left column, then the right one. -/
def splitSection (pairs : List DiffPair) : List DomLine :=
  (pairs.map fun p => splitLine .old leftSpans p.1) ++
    pairs.map fun p => splitLine .new rightSpans p.2

/-- The lines between two hunks. -/
def hiddenPairs (prev next : DiffHunk) : List DiffPair :=
  match prev.pairs.getLast?, next.pairs.head? with
  | some (some prevL, some prevR), some (some nextL, _) =>
    (List.range (nextL - prevL - 1)).map fun i => (some (prevL + (i + 1)), some (prevR + (i + 1)))
  | _, _ => []

/-! ### The unified layout -/

/-- `DiffLineUnified` of `makeSpan`. -/
def unifiedLine (span : LineSpan) (leftNum rightNum : Option ℕ) : DomLine :=
  ⟨none, leftNum, rightNum, span.lineType, none, span.tokens⟩

/-- `lineType(spans, idx)`. -/
def lineTypeAt (spans : List LineSpan) (idx : ℕ) : LineType :=
  (spans[idx]?.map LineSpan.lineType).getD .normal

/-- The sentinel of the unified layout. -/
def sentinelSpan : LineSpan := ⟨0, .normal, []⟩

def isChanged : DiffPair → Bool
  | (some l, some r) =>
    decide (lineTypeAt leftSpans l ≠ .normal) || decide (lineTypeAt rightSpans r ≠ .normal)
  | _ => true

def pushContext : DiffPair → List DomLine
  | (some l, some r) =>
    [unifiedLine (leftSpans[l]?.getD sentinelSpan) (some (l + 1)) (some (r + 1))]
  | _ => []

/-- A removed line of a block. -/
def pushMinus : DiffPair → List DomLine
  | (some l, _) =>
    if lineTypeAt leftSpans l = .removed then
      [unifiedLine (leftSpans[l]?.getD sentinelSpan) (some (l + 1)) none]
    else []
  | (none, _) => []

/-- An added line of a block. -/
def pushPlus : DiffPair → List DomLine
  | (l, some r) =>
    if l.isNone ∨ lineTypeAt rightSpans r = .added then
      [unifiedLine (rightSpans[r]?.getD sentinelSpan) none (some (r + 1))]
    else []
  | (_, none) => []

/-- The loop over the pairs between the first change and the last: a block of
changes emits its removals, then its additions. -/
def renderModified : List DiffPair → List DomLine
  | [] => []
  | p :: pairs =>
    if isChanged leftSpans rightSpans p then
      let block := p :: pairs.takeWhile (isChanged leftSpans rightSpans)
      block.flatMap (pushMinus leftSpans) ++ block.flatMap (pushPlus rightSpans) ++
        renderModified (pairs.dropWhile (isChanged leftSpans rightSpans))
    else pushContext leftSpans p ++ renderModified pairs
  termination_by pairs => pairs.length
  decreasing_by
    · have := (List.dropWhile_sublist (isChanged leftSpans rightSpans) (l := pairs)).length_le
      rw [List.length_cons]
      omega
    · simp

/-- `DiffSection` of the unified layout. -/
def unifiedSection (pairs : List DiffPair) : List DomLine :=
  let changed := isChanged leftSpans rightSpans
  if pairs.any changed then
    let before := pairs.takeWhile fun p => !changed p
    let rest := pairs.dropWhile fun p => !changed p
    let modified := (rest.reverse.dropWhile fun p => !changed p).reverse
    let after := (rest.reverse.takeWhile fun p => !changed p).reverse
    before.flatMap (pushContext leftSpans) ++ renderModified leftSpans rightSpans modified ++
      after.flatMap (pushContext leftSpans)
  else []

/-- `HiddenSection` of the unified layout, expanded. -/
def unifiedHidden (pairs : List DiffPair) : List DomLine :=
  pairs.flatMap fun
    | (some l, some r) =>
      (leftSpans[l]?.map fun span => unifiedLine span (some (l + 1)) (some (r + 1))).toList
    | _ => []

/-! ### The page -/

inductive DiffLayout where
  | split
  | unified
  deriving DecidableEq

def DiffLayout.section : DiffLayout → List DiffPair → List DomLine
  | .split => splitSection leftSpans rightSpans
  | .unified => unifiedSection leftSpans rightSpans

def DiffLayout.hidden : DiffLayout → List DiffPair → List DomLine
  | .split => splitSection leftSpans rightSpans
  | .unified => unifiedHidden leftSpans

/-- The section in front of a hunk: nothing at the top of the page, else the
hidden lines if they are expanded. -/
def hiddenSection (layout : DiffLayout) (expanded : ℕ → Bool) (index : ℕ) (prev : Option DiffHunk)
    (next : DiffHunk) : List DomLine :=
  match prev with
  | some prev =>
    if expanded index then layout.hidden leftSpans rightSpans (hiddenPairs prev next) else []
  | none => []

/-- The hunks down the page, from the one at `index` on, behind `prev`. -/
def renderHunks (layout : DiffLayout) (expanded : ℕ → Bool) :
    ℕ → Option DiffHunk → List DiffHunk → List DomLine
  | _, _, [] => []
  | index, prev, hunk :: hunks =>
    hiddenSection leftSpans rightSpans layout expanded index prev hunk ++
      layout.section leftSpans rightSpans hunk.pairs ++
      renderHunks layout expanded (index + 1) (some hunk) hunks

end

/-- Tokens of a line from left to right. -/
def DiffToken.Before (a b : DiffToken) : Prop :=
  a.charStart < b.charStart ∧ a.charEnd < b.charEnd

/-- A diff on the page: the hunks of two texts, the tokens of their lines with
increasing ranges, a layout, and which hidden sections are expanded. -/
structure RenderedDiff where
  left : List (List Char)
  right : List (List Char)
  hunks : List DiffHunk
  trail : DiffTrail left right 0 0 hunks
  leftTokens : List (List DiffToken)
  rightTokens : List (List DiffToken)
  leftTiled : ∀ tokens ∈ leftTokens, tokens.Pairwise DiffToken.Before
  rightTiled : ∀ tokens ∈ rightTokens, tokens.Pairwise DiffToken.Before
  layout : DiffLayout
  expanded : ℕ → Bool

namespace RenderedDiff

variable (d : RenderedDiff)

def leftSpans : List LineSpan :=
  lineSpans .left (unionOf DiffHunk.removedLines d.hunks) d.leftTokens

def rightSpans : List LineSpan :=
  lineSpans .right (unionOf DiffHunk.addedLines d.hunks) d.rightTokens

def lines : List DomLine :=
  renderHunks d.leftSpans d.rightSpans d.layout d.expanded 0 none d.hunks

end RenderedDiff

/-! ### The numbers on a side -/

/-- The numbers of the lines of this side, down the page. -/
def numbersOn (side : CommentSide) (lines : List DomLine) : List ℕ :=
  lines.filterMap fun line => if readSide line = side then readLineNumber line else none

/-- The indices of the pairs on this side. -/
def indicesOn : CommentSide → List DiffPair → List ℕ
  | .old => lefts
  | .new => rights

/-- On this side the lines are some of those the pairs name, in their order. -/
def Follows (side : CommentSide) (lines : List DomLine) (pairs : List DiffPair) : Prop :=
  (numbersOn side lines).Sublist ((indicesOn side pairs).map (· + 1))

section Follows

variable {side : CommentSide} {lines lines' : List DomLine} {pairs pairs' : List DiffPair}
  {leftSpans rightSpans : List LineSpan}

@[simp] theorem numbersOn_append (side : CommentSide) (lines lines' : List DomLine) :
    numbersOn side (lines ++ lines') = numbersOn side lines ++ numbersOn side lines' :=
  List.filterMap_append

@[simp] theorem indicesOn_append (side : CommentSide) (pairs pairs' : List DiffPair) :
    indicesOn side (pairs ++ pairs') = indicesOn side pairs ++ indicesOn side pairs' := by
  cases side
  · exact lefts_append pairs pairs'
  · exact rights_append pairs pairs'

theorem numbersOn_eq_nil (h : ∀ line ∈ lines, readSide line ≠ side) : numbersOn side lines = [] :=
  List.filterMap_eq_nil_iff.mpr fun line hl => if_neg (h line hl)

theorem Follows.of_nil (h : numbersOn side lines = []) : Follows side lines pairs := by
  rw [Follows, h]
  exact List.nil_sublist _

theorem Follows.append (h : Follows side lines pairs) (h' : Follows side lines' pairs') :
    Follows side (lines ++ lines') (pairs ++ pairs') := by
  rw [Follows, numbersOn_append, indicesOn_append, List.map_append]
  exact List.Sublist.append h h'

theorem Follows.flatMap {f : DiffPair → List DomLine} (h : ∀ p, Follows side (f p) [p]) :
    ∀ pairs : List DiffPair, Follows side (pairs.flatMap f) pairs
  | [] => .of_nil rfl
  | p :: pairs => by
    rw [List.flatMap_cons]
    exact (h p).append (Follows.flatMap h pairs)

/-- A line of a pair that has the number of the pair on its own side. -/
theorem Follows.single {line : DomLine} {p : DiffPair}
    (h : readSide line = side → ∀ n, readLineNumber line = some n →
      ∃ i, indicesOn side [p] = [i] ∧ n = i + 1) :
    Follows side [line] [p] := by
  by_cases hside : readSide line = side
  · cases hn : readLineNumber line with
    | none => exact .of_nil (by simp [numbersOn, hn])
    | some n =>
      obtain ⟨i, hi, rfl⟩ := h hside n hn
      simp [Follows, numbersOn, hside, hn, hi]
  · exact .of_nil (numbersOn_eq_nil fun l hl => by rwa [List.mem_singleton.mp hl])

/-- Spans numbered from one. -/
def Counted (spans : List LineSpan) : Prop := ∀ k span, spans[k]? = some span → span.lineNumber = k + 1

theorem counted_lineSpans (side : DiffSide) (changedLines : Finset ℕ)
    (lines : List (List DiffToken)) : Counted (lineSpans side changedLines lines) := by
  intro k span h
  rw [lineSpans, List.getElem?_mapIdx] at h
  obtain ⟨tokens, _, rfl⟩ := Option.map_eq_some_iff.mp h
  rfl

@[simp] theorem readSide_splitLine (side : CommentSide) (spans : List LineSpan)
    (index : Option ℕ) : readSide (splitLine side spans index) = side := by
  unfold splitLine
  split <;> rfl

theorem readLineNumber_splitLine {spans : List LineSpan} (hc : Counted spans) (side : CommentSide)
    (index : Option ℕ) {n : ℕ} (h : readLineNumber (splitLine side spans index) = some n) :
    ∃ i, index = some i ∧ n = i + 1 := by
  unfold splitLine at h
  split at h
  · rename_i span hspan
    obtain ⟨i, rfl, hi⟩ := Option.bind_eq_some_iff.mp hspan
    exact ⟨i, rfl, (Option.some.inj h).symm.trans (hc i span hi)⟩
  · cases h

/-- The column of a side follows the pairs. -/
theorem follows_column {spans : List LineSpan} (hc : Counted spans) {side : CommentSide}
    {index : DiffPair → Option ℕ} (hindex : ∀ p i, index p = some i → indicesOn side [p] = [i])
    (pairs : List DiffPair) :
    Follows side (pairs.map fun p => splitLine side spans (index p)) pairs := by
  rw [List.map_eq_flatMap]
  refine Follows.flatMap (fun p => Follows.single fun _ n hn => ?_) pairs
  obtain ⟨i, hi, rfl⟩ := readLineNumber_splitLine hc side (index p) hn
  exact ⟨i, hindex p i hi, rfl⟩

/-- The other column has no lines of the side. -/
theorem numbersOn_column {column side : CommentSide} (hne : column ≠ side) (spans : List LineSpan)
    (index : DiffPair → Option ℕ) (pairs : List DiffPair) :
    numbersOn side (pairs.map fun p => splitLine column spans (index p)) = [] := by
  refine numbersOn_eq_nil fun line hline => ?_
  obtain ⟨p, _, rfl⟩ := List.mem_map.mp hline
  rw [readSide_splitLine]
  exact hne

theorem follows_splitSection (hl : Counted leftSpans) (hr : Counted rightSpans)
    (side : CommentSide) (pairs : List DiffPair) :
    Follows side (splitSection leftSpans rightSpans pairs) pairs := by
  cases side with
  | old =>
    have hleft : Follows .old (pairs.map fun p => splitLine .old leftSpans p.1) pairs :=
      follows_column hl (fun p i hi => by simp [indicesOn, lefts, hi]) pairs
    have hright : Follows .old (pairs.map fun p => splitLine .new rightSpans p.2) [] :=
      .of_nil (numbersOn_column (by decide) rightSpans Prod.snd pairs)
    have := hleft.append hright
    rwa [List.append_nil] at this
  | new =>
    have hleft : Follows .new (pairs.map fun p => splitLine .old leftSpans p.1) [] :=
      .of_nil (numbersOn_column (by decide) leftSpans Prod.fst pairs)
    have hright : Follows .new (pairs.map fun p => splitLine .new rightSpans p.2) pairs :=
      follows_column hr (fun p i hi => by simp [indicesOn, rights, hi]) pairs
    exact hleft.append hright

/-- A line with both numbers has the one of its side. -/
theorem follows_unifiedLine (side : CommentSide) (span : LineSpan) (l r : ℕ) :
    Follows side [unifiedLine span (some (l + 1)) (some (r + 1))] [(some l, some r)] := by
  refine Follows.single fun hside n hn => ?_
  by_cases ht : span.lineType = .removed
  · simp only [readSide, unifiedLine, ht, if_true] at hside
    simp only [readLineNumber, unifiedLine, ht, Option.isSome_some, and_self, if_true,
      Option.some.injEq] at hn
    subst hside
    exact ⟨l, rfl, hn.symm⟩
  · simp only [readSide, unifiedLine, ht, if_false] at hside
    simp only [readLineNumber, unifiedLine, ht, Option.isSome_some, false_and, if_false, if_true,
      Option.some.injEq] at hn
    subst hside
    exact ⟨r, rfl, hn.symm⟩

theorem follows_pushContext (side : CommentSide) (p : DiffPair) :
    Follows side (pushContext leftSpans p) [p] := by
  rcases p with ⟨_ | l, _ | r⟩
  · exact .of_nil rfl
  · exact .of_nil rfl
  · exact .of_nil rfl
  · exact follows_unifiedLine side _ l r

theorem follows_unifiedHidden (side : CommentSide) (pairs : List DiffPair) :
    Follows side (unifiedHidden leftSpans pairs) pairs := by
  refine Follows.flatMap (fun p => ?_) pairs
  rcases p with ⟨_ | l, _ | r⟩
  · exact .of_nil rfl
  · exact .of_nil rfl
  · exact .of_nil rfl
  · cases hspan : leftSpans[l]? with
    | none => exact .of_nil (by simp [hspan, numbersOn])
    | some span => simpa [hspan] using follows_unifiedLine side span l r

/-- Removals are lines of the old side. -/
theorem follows_pushMinus (p : DiffPair) :
    Follows .old (pushMinus leftSpans p) [p] ∧ numbersOn .new (pushMinus leftSpans p) = [] := by
  obtain ⟨_ | l, r⟩ := p
  · exact ⟨.of_nil rfl, rfl⟩
  · by_cases ht : lineTypeAt leftSpans l = .removed
    · have hpush : pushMinus leftSpans (some l, r) =
          [unifiedLine (leftSpans[l]?.getD sentinelSpan) (some (l + 1)) none] := if_pos ht
      rw [hpush]
      have htype : (leftSpans[l]?.getD sentinelSpan).lineType = .removed := by
        cases hspan : leftSpans[l]? with
        | none => simp [lineTypeAt, hspan] at ht
        | some span => simpa [lineTypeAt, hspan] using ht
      refine ⟨Follows.single fun _ n hn => ?_, numbersOn_eq_nil fun line hline => ?_⟩
      · simp only [readLineNumber, unifiedLine, htype, Option.isSome_some, and_self, if_true,
          Option.some.injEq] at hn
        exact ⟨l, rfl, hn.symm⟩
      · rw [List.mem_singleton.mp hline]
        simp [readSide, unifiedLine, htype]
    · have hpush : pushMinus leftSpans (some l, r) = [] := if_neg ht
      rw [hpush]
      exact ⟨.of_nil rfl, rfl⟩

/-- Additions are lines of the new side. -/
theorem follows_pushPlus (hr : ∀ span ∈ rightSpans, span.lineType ≠ .removed) (p : DiffPair) :
    Follows .new (pushPlus rightSpans p) [p] ∧ numbersOn .old (pushPlus rightSpans p) = [] := by
  obtain ⟨l, _ | r⟩ := p
  · exact ⟨.of_nil rfl, rfl⟩
  · by_cases ht : l.isNone ∨ lineTypeAt rightSpans r = .added
    · have hpush : pushPlus rightSpans (l, some r) =
          [unifiedLine (rightSpans[r]?.getD sentinelSpan) none (some (r + 1))] := by
        simp only [pushPlus, if_pos ht]
      rw [hpush]
      have htype : (rightSpans[r]?.getD sentinelSpan).lineType ≠ .removed := by
        cases hspan : rightSpans[r]? with
        | none => simp [sentinelSpan]
        | some span => exact hr span (List.mem_of_getElem? hspan)
      refine ⟨Follows.single fun _ n hn => ?_, numbersOn_eq_nil fun line hline => ?_⟩
      · simp only [readLineNumber, unifiedLine, htype, false_and, if_false, Option.isSome_some,
          if_true, Option.some.injEq] at hn
        exact ⟨r, rfl, hn.symm⟩
      · rw [List.mem_singleton.mp hline]
        simp [readSide, unifiedLine, htype]
    · have hpush : pushPlus rightSpans (l, some r) = [] := by simp only [pushPlus, if_neg ht]
      rw [hpush]
      exact ⟨.of_nil rfl, rfl⟩

/-- A block of changes, its removals above its additions. -/
theorem follows_block (hr : ∀ span ∈ rightSpans, span.lineType ≠ .removed) (side : CommentSide)
    (block : List DiffPair) :
    Follows side (block.flatMap (pushMinus leftSpans) ++ block.flatMap (pushPlus rightSpans))
      block := by
  have hempty : ∀ (side : CommentSide) (f : DiffPair → List DomLine),
      (∀ p, numbersOn side (f p) = []) → numbersOn side (block.flatMap f) = [] := by
    intro side f hf
    induction block with
    | nil => rfl
    | cons p block ih => rw [List.flatMap_cons, numbersOn_append, hf, ih, List.append_nil]
  cases side with
  | old =>
    have hminus : Follows .old (block.flatMap (pushMinus leftSpans)) block :=
      Follows.flatMap (fun p => (follows_pushMinus p).1) block
    have hplus : Follows .old (block.flatMap (pushPlus rightSpans)) [] :=
      .of_nil (hempty .old _ fun p => (follows_pushPlus hr p).2)
    have := hminus.append hplus
    rwa [List.append_nil] at this
  | new =>
    have hminus : Follows .new (block.flatMap (pushMinus leftSpans)) [] :=
      .of_nil (hempty .new _ fun p => (follows_pushMinus p).2)
    exact hminus.append (Follows.flatMap (fun p => (follows_pushPlus hr p).1) block)

theorem follows_renderModified (hr : ∀ span ∈ rightSpans, span.lineType ≠ .removed)
    (side : CommentSide) (pairs : List DiffPair) :
    Follows side (renderModified leftSpans rightSpans pairs) pairs := by
  induction pairs using renderModified.induct leftSpans rightSpans with
  | case1 => exact .of_nil (by rw [renderModified]; rfl)
  | case2 p pairs hp ih =>
    rw [renderModified, if_pos hp]
    have hsplit : p :: pairs = (p :: pairs.takeWhile (isChanged leftSpans rightSpans)) ++
        pairs.dropWhile (isChanged leftSpans rightSpans) := by
      rw [List.cons_append, List.takeWhile_append_dropWhile]
    conv_rhs => rw [hsplit]
    exact (follows_block hr side _).append ih
  | case3 p pairs hp ih =>
    rw [renderModified, if_neg hp]
    exact (follows_pushContext side p).append ih

theorem follows_unifiedSection (hr : ∀ span ∈ rightSpans, span.lineType ≠ .removed)
    (side : CommentSide) (pairs : List DiffPair) :
    Follows side (unifiedSection leftSpans rightSpans pairs) pairs := by
  unfold unifiedSection
  dsimp only
  split_ifs
  · generalize isChanged leftSpans rightSpans = changed
    have hrest : ∀ rest : List DiffPair, rest = (rest.reverse.dropWhile fun p => !changed p).reverse ++
        (rest.reverse.takeWhile fun p => !changed p).reverse := fun rest => by
      rw [← List.reverse_append, List.takeWhile_append_dropWhile, List.reverse_reverse]
    have hpairs : pairs = pairs.takeWhile (fun p => !changed p) ++
        (((pairs.dropWhile fun p => !changed p).reverse.dropWhile fun p => !changed p).reverse ++
          ((pairs.dropWhile fun p => !changed p).reverse.takeWhile fun p => !changed p).reverse) := by
      rw [← hrest, List.takeWhile_append_dropWhile]
    conv_rhs => rw [hpairs, ← List.append_assoc]
    exact ((Follows.flatMap (follows_pushContext side) _).append (follows_renderModified hr side _)).append
      (Follows.flatMap (follows_pushContext side) _)
  · exact .of_nil rfl

theorem follows_section (hcl : Counted leftSpans) (hcr : Counted rightSpans)
    (hr : ∀ span ∈ rightSpans, span.lineType ≠ .removed) (side : CommentSide) (layout : DiffLayout)
    (pairs : List DiffPair) : Follows side (layout.section leftSpans rightSpans pairs) pairs := by
  cases layout with
  | split => exact follows_splitSection hcl hcr side pairs
  | unified => exact follows_unifiedSection hr side pairs

theorem follows_hidden (hcl : Counted leftSpans) (hcr : Counted rightSpans) (side : CommentSide)
    (layout : DiffLayout) (pairs : List DiffPair) :
    Follows side (layout.hidden leftSpans rightSpans pairs) pairs := by
  cases layout with
  | split => exact follows_splitSection hcl hcr side pairs
  | unified => exact follows_unifiedHidden side pairs

end Follows

/-! ### Down the page -/

/-- On this side the numbers increase, all above `lo`. -/
def Above (side : CommentSide) (lines : List DomLine) (lo : ℕ) : Prop :=
  (numbersOn side lines).Pairwise (· < ·) ∧ ∀ n ∈ numbersOn side lines, lo < n

section Down

variable {L R : List (List Char)} {side : CommentSide} {leftSpans rightSpans : List LineSpan}

/-- Lines of a run of indices on top of lines with greater numbers. -/
theorem Above.append {lines lines' : List DomLine} {pairs : List DiffPair} {lo n : ℕ}
    (h : Follows side lines pairs) (hrange : indicesOn side pairs = List.range' lo n)
    (h' : Above side lines' (lo + n)) : Above side (lines ++ lines') lo := by
  have hlt : ((indicesOn side pairs).map (· + 1)).Pairwise (· < ·) := by
    rw [hrange]
    exact List.pairwise_map.mpr (List.Pairwise.imp (fun hlt => Nat.succ_lt_succ hlt)
      List.pairwise_lt_range')
  have hbound : ∀ m ∈ numbersOn side lines, lo < m ∧ m ≤ lo + n := by
    intro m hm
    obtain ⟨k, hk, rfl⟩ := List.mem_map.mp (h.subset hm)
    rw [hrange] at hk
    have := List.mem_range'_1.mp hk
    omega
  rw [Above, numbersOn_append]
  refine ⟨List.pairwise_append.mpr ⟨hlt.sublist h, h'.1, fun m hm k hk => ?_⟩, fun m hm => ?_⟩
  · have := hbound m hm
    have := h'.2 k hk
    omega
  · rcases List.mem_append.mp hm with hm | hm
    · exact (hbound m hm).1
    · have := h'.2 m hm
      omega

/-- Where the indices of a side are, of two positions. -/
def CommentSide.pick : CommentSide → ℕ → ℕ → ℕ
  | .old, i, _ => i
  | .new, _, j => j

theorem indicesOn_block {removed added : Finset ℕ} {pairs : List DiffPair} {i j a b : ℕ}
    (h : Block L R removed added pairs i j a b) (side : CommentSide) :
    indicesOn side pairs = List.range' (side.pick i j) (side.pick a b) := by
  cases side
  · exact h.left
  · exact h.right

/-- The lines between two hunks are the stretch there, where they are shown. -/
theorem hiddenPairs_eq {prev next : DiffHunk} {i j a b g a' b' : ℕ} (hprev : prev.Shows L R i j a b)
    (hnext : next.Shows L R (i + a + g) (j + b + g) a' b') :
    hiddenPairs prev next = [] ∨ hiddenPairs prev next =
      (List.range g).map fun k => (some (i + a + k), some (j + b + k)) := by
  unfold hiddenPairs
  split
  · rename_i l r l' r' hlast hhead
    obtain ⟨hl, hr⟩ := hprev.last hlast
    have hl' := hnext.first hhead
    have hcount : l' - l - 1 = g := by omega
    refine .inr ?_
    rw [hcount]
    refine List.map_congr_left fun k _ => ?_
    simp only [Prod.mk.injEq, Option.some.injEq]
    omega
  · exact .inl rfl

/-- Down the page the numbers of a side increase. -/
theorem above_renderHunks (hcl : Counted leftSpans) (hcr : Counted rightSpans)
    (hr : ∀ span ∈ rightSpans, span.lineType ≠ .removed) (side : CommentSide) (layout : DiffLayout)
    (expanded : ℕ → Bool) {hunks : List DiffHunk} {i j : ℕ} (h : DiffTrail L R i j hunks) :
    ∀ (index : ℕ) (prev : Option DiffHunk),
      (∀ p ∈ prev, ∃ i' j' a b, p.Shows L R i' j' a b ∧ i' + a = i ∧ j' + b = j) →
      Above side (renderHunks leftSpans rightSpans layout expanded index prev hunks)
        (side.pick i j) := by
  induction h with
  | last _ _ _ => exact fun _ _ _ => ⟨.nil, fun _ h => absurd h List.not_mem_nil⟩
  | @next i j g a b hunk hunks hsame hblock htrail ih =>
    intro index prev hprev
    have hrest := ih (index + 1) (some hunk) fun p hp => by
      obtain rfl := Option.some.inj hp
      exact ⟨_, _, _, _, hblock, rfl, rfl⟩
    have hpick : ∀ m n m' n' : ℕ, side.pick m n + side.pick m' n' = side.pick (m + m') (n + n') := by
      intro m n m' n'
      cases side <;> rfl
    have hsection := Above.append (follows_section hcl hcr hr side layout hunk.pairs)
      (indicesOn_block hblock side) (by rwa [hpick])
    have hskip : ∀ n, side.pick i j ≤ n → ∀ lines, Above side lines n →
        Above side lines (side.pick i j) := fun n hle lines h => ⟨h.1, fun m hm => hle.trans_lt (h.2 m hm)⟩
    have hge : side.pick i j ≤ side.pick (i + g) (j + g) := by
      rw [← hpick]
      exact Nat.le_add_right _ _
    rw [renderHunks, List.append_assoc]
    cases prev with
    | none => exact hskip _ hge _ hsection
    | some prev =>
      obtain ⟨i', j', a', b', hshows, rfl, rfl⟩ := hprev prev rfl
      unfold hiddenSection
      dsimp only
      split_ifs
      · rcases hiddenPairs_eq hshows hblock with hnil | heq
        · rw [hnil]
          refine Above.append (follows_hidden hcl hcr side layout []) (n := 0) ?_ (hskip _ hge _ hsection)
          cases side <;> rfl
        · rw [heq]
          refine Above.append (follows_hidden hcl hcr side layout _)
            (indicesOn_block (Block.same hsame) side) ?_
          rwa [hpick]
      · exact hskip _ hge _ hsection

end Down

theorem lineType_lineSpans_right {changedLines : Finset ℕ} {lines : List (List DiffToken)} :
    ∀ span ∈ lineSpans .right changedLines lines, span.lineType ≠ .removed := by
  intro span hspan
  obtain ⟨k, _, rfl⟩ := List.mem_mapIdx.mp hspan
  by_cases hk : k ∈ changedLines <;> simp [hk]

/-! ### The tokens of a line -/

/-- The tokens of each line go from left to right. -/
def Tiled (lines : List DomLine) : Prop := ∀ line ∈ lines, line.tokens.Pairwise DiffToken.Before

/-- Those of each span. -/
def TiledSpans (spans : List LineSpan) : Prop :=
  ∀ span ∈ spans, span.tokens.Pairwise DiffToken.Before

section Tiled

variable {leftSpans rightSpans : List LineSpan}

theorem Tiled.nil : Tiled [] := fun _ h => absurd h List.not_mem_nil

theorem Tiled.append {lines lines' : List DomLine} (h : Tiled lines) (h' : Tiled lines') :
    Tiled (lines ++ lines') := fun line hl => (List.mem_append.mp hl).elim (h line) (h' line)

theorem Tiled.flatMap {f : DiffPair → List DomLine} (h : ∀ p, Tiled (f p)) (pairs : List DiffPair) :
    Tiled (pairs.flatMap f) := fun line hl => by
  obtain ⟨p, _, hp⟩ := List.mem_flatMap.mp hl
  exact h p line hp

theorem TiledSpans.getD {spans : List LineSpan} (h : TiledSpans spans) (k : ℕ) :
    (spans[k]?.getD sentinelSpan).tokens.Pairwise DiffToken.Before := by
  cases hspan : spans[k]? with
  | none => exact List.Pairwise.nil
  | some span => exact h span (List.mem_of_getElem? hspan)

theorem tiled_unifiedLine {span : LineSpan} {l r : Option ℕ}
    (h : span.tokens.Pairwise DiffToken.Before) : Tiled [unifiedLine span l r] := fun line hl => by
  rw [List.mem_singleton.mp hl]
  exact h

theorem tiled_splitSection (hl : TiledSpans leftSpans) (hr : TiledSpans rightSpans)
    (pairs : List DiffPair) : Tiled (splitSection leftSpans rightSpans pairs) := by
  have hline : ∀ (side : CommentSide) (spans : List LineSpan), TiledSpans spans → ∀ index,
      (splitLine side spans index).tokens.Pairwise DiffToken.Before := by
    intro side spans hspans index
    unfold splitLine
    split
    · rename_i span hspan
      obtain ⟨k, _, hk⟩ := Option.bind_eq_some_iff.mp hspan
      exact hspans span (List.mem_of_getElem? hk)
    · exact List.Pairwise.nil
  refine Tiled.append (fun line hmem => ?_) fun line hmem => ?_
  · obtain ⟨p, _, rfl⟩ := List.mem_map.mp hmem
    exact hline _ _ hl _
  · obtain ⟨p, _, rfl⟩ := List.mem_map.mp hmem
    exact hline _ _ hr _

theorem tiled_pushContext (hl : TiledSpans leftSpans) (p : DiffPair) :
    Tiled (pushContext leftSpans p) := by
  rcases p with ⟨_ | l, _ | r⟩
  · exact .nil
  · exact .nil
  · exact .nil
  · exact tiled_unifiedLine (hl.getD l)

theorem tiled_pushMinus (hl : TiledSpans leftSpans) (p : DiffPair) :
    Tiled (pushMinus leftSpans p) := by
  obtain ⟨_ | l, r⟩ := p
  · exact .nil
  · by_cases ht : lineTypeAt leftSpans l = .removed
    · simp only [pushMinus, if_pos ht]
      exact tiled_unifiedLine (hl.getD l)
    · simp only [pushMinus, if_neg ht]
      exact .nil

theorem tiled_pushPlus (hr : TiledSpans rightSpans) (p : DiffPair) :
    Tiled (pushPlus rightSpans p) := by
  obtain ⟨l, _ | r⟩ := p
  · exact .nil
  · by_cases ht : l.isNone ∨ lineTypeAt rightSpans r = .added
    · simp only [pushPlus, if_pos ht]
      exact tiled_unifiedLine (hr.getD r)
    · simp only [pushPlus, if_neg ht]
      exact .nil

theorem tiled_renderModified (hl : TiledSpans leftSpans) (hr : TiledSpans rightSpans)
    (pairs : List DiffPair) : Tiled (renderModified leftSpans rightSpans pairs) := by
  induction pairs using renderModified.induct leftSpans rightSpans with
  | case1 =>
    rw [renderModified]
    exact .nil
  | case2 p pairs hp ih =>
    rw [renderModified, if_pos hp]
    exact ((Tiled.flatMap (tiled_pushMinus hl) _).append (Tiled.flatMap (tiled_pushPlus hr) _)).append ih
  | case3 p pairs hp ih =>
    rw [renderModified, if_neg hp]
    exact (tiled_pushContext hl p).append ih

theorem tiled_section (hl : TiledSpans leftSpans) (hr : TiledSpans rightSpans) (layout : DiffLayout)
    (pairs : List DiffPair) : Tiled (layout.section leftSpans rightSpans pairs) := by
  cases layout with
  | split => exact tiled_splitSection hl hr pairs
  | unified =>
    show Tiled (unifiedSection leftSpans rightSpans pairs)
    unfold unifiedSection
    dsimp only
    split_ifs
    · exact ((Tiled.flatMap (tiled_pushContext hl) _).append (tiled_renderModified hl hr _)).append
        (Tiled.flatMap (tiled_pushContext hl) _)
    · exact .nil

theorem tiled_hidden (hl : TiledSpans leftSpans) (hr : TiledSpans rightSpans) (layout : DiffLayout)
    (pairs : List DiffPair) : Tiled (layout.hidden leftSpans rightSpans pairs) := by
  cases layout with
  | split => exact tiled_splitSection hl hr pairs
  | unified =>
    refine Tiled.flatMap (fun p => ?_) pairs
    rcases p with ⟨_ | l, _ | r⟩
    · exact .nil
    · exact .nil
    · exact .nil
    · cases hspan : leftSpans[l]? with
      | none => simpa [hspan] using Tiled.nil
      | some span =>
        simpa [hspan] using tiled_unifiedLine (hl span (List.mem_of_getElem? hspan))

theorem tiled_renderHunks (hl : TiledSpans leftSpans) (hr : TiledSpans rightSpans)
    (layout : DiffLayout) (expanded : ℕ → Bool) : ∀ (hunks : List DiffHunk) (index : ℕ)
      (prev : Option DiffHunk),
      Tiled (renderHunks leftSpans rightSpans layout expanded index prev hunks)
  | [], _, _ => .nil
  | hunk :: hunks, index, prev => by
    have hhidden : Tiled (hiddenSection leftSpans rightSpans layout expanded index prev hunk) := by
      unfold hiddenSection
      split
      · split_ifs
        · exact tiled_hidden hl hr layout _
        · exact .nil
      · exact .nil
    rw [renderHunks]
    exact (hhidden.append (tiled_section hl hr layout _)).append
      (tiled_renderHunks hl hr layout expanded hunks _ _)

theorem tiled_lineSpans {side : DiffSide} {changedLines : Finset ℕ} {lines : List (List DiffToken)}
    (h : ∀ tokens ∈ lines, tokens.Pairwise DiffToken.Before) :
    TiledSpans (lineSpans side changedLines lines) := by
  intro span hspan
  obtain ⟨k, hk, rfl⟩ := List.mem_mapIdx.mp hspan
  exact h _ (List.getElem_mem hk)

end Tiled

namespace RenderedDiff

variable (d : RenderedDiff)

/-- On each side the numbers of a rendered diff increase. -/
theorem pairwise_numbers (side : CommentSide) : (numbersOn side d.lines).Pairwise (· < ·) :=
  (above_renderHunks (counted_lineSpans _ _ _) (counted_lineSpans _ _ _) lineType_lineSpans_right side
    d.layout d.expanded d.trail 0 none fun p hp => by cases hp).1

theorem tiled_lines : Tiled d.lines :=
  tiled_renderHunks (tiled_lineSpans d.leftTiled) (tiled_lineSpans d.rightTiled) d.layout d.expanded
    d.hunks 0 none

end RenderedDiff

end Gitdot
