/-
# Anchors of comments

A selection of tokens is stored as an anchor: the line and character where it
starts, those where it ends, and one side, that of its first line
(`computeSelectionRange`). `useHighlightComments` finds the two ends of an
anchor again among the lines of that side.

So a selection and its comment mark the same tokens exactly when the last
line of the selection is on the side of the first (`anchor_roundTrip_iff`);
from a removed line to an added one the end is looked for on the wrong side.

Key definitions: `computeSelectionRange`, `findEnds`, `useHighlightComments`,
`RenderedDiff.RoundTrips`.
Key theorems: `pairwise_tokenSpans`, `findEnds_fst`, `findEnds_snd`,
`anchor_roundTrip_iff`, `not_anchor_roundTrip`.
-/
import Gitdot.Web.Layouts

namespace Gitdot

open Lib

/-! ### The code -/

/-- A token with the line it is in, `closest(".diff-line")`. -/
abbrev TokenSpan := DomLine × DiffToken

/-- The tokens down the page, `querySelectorAll(".diff-token")`. -/
def tokenSpans (lines : List DomLine) : List TokenSpan :=
  lines.flatMap fun line => line.tokens.map fun token => (line, token)

structure SelectionRange where
  lineNumberStart : ℕ
  lineNumberEnd : ℕ
  startCharacter : ℕ
  endCharacter : ℕ
  side : CommentSide
  deriving DecidableEq

/-- `none` is an exception: no such token, or its line has no number. -/
def computeSelectionRange (spans : List TokenSpan) (startIdx endIdx : ℕ) (isReversed : Bool) :
    Option SelectionRange := do
  let firstToken ← if isReversed then spans[endIdx]? else spans[startIdx]?
  let lastToken ← if isReversed then spans[startIdx]? else spans[endIdx]?
  let lineNumberStart ← readLineNumber firstToken.1
  let lineNumberEnd ← readLineNumber lastToken.1
  some
    { lineNumberStart := lineNumberStart
      lineNumberEnd := lineNumberEnd
      startCharacter := firstToken.2.charStart
      endCharacter := lastToken.2.charEnd
      side := readSide firstToken.1 }

/-- Where the comment on the selection stands, as `newComment` submits it. -/
def SelectionRange.place (range : SelectionRange) (path : String) : CommentPlace :=
  { filePath := some path
    lineNumberStart := some range.lineNumberStart
    lineNumberEnd := some range.lineNumberEnd
    startCharacter := some range.startCharacter
    endCharacter := some range.endCharacter
    side := some range.side }

/-- What `useHighlightComments` takes out of a comment. -/
structure CommentAnchor where
  lineNumberStart : ℤ
  lineNumberEnd : ℤ
  startCharacter : ℤ
  endCharacter : ℤ
  side : Option CommentSide

def commentAnchor (comment : ReviewComment) : Option CommentAnchor := do
  let lineNumberStart ← comment.place.lineNumberStart
  let lineNumberEnd ← comment.place.lineNumberEnd
  let startCharacter ← comment.place.startCharacter
  let endCharacter ← comment.place.endCharacter
  some ⟨lineNumberStart, lineNumberEnd, startCharacter, endCharacter, comment.place.side⟩

/-- `lineNum === lineNumber && char === character`. -/
def standsAt (lineNum : Option ℕ) (char : ℕ) (lineNumber character : ℤ) : Prop :=
  lineNum.map Int.ofNat = some lineNumber ∧ (char : ℤ) = character

instance (lineNum : Option ℕ) (char : ℕ) (lineNumber character : ℤ) :
    Decidable (standsAt lineNum char lineNumber character) := inferInstanceAs (Decidable (_ ∧ _))

/-- The loop over the tokens, from index `i` on. -/
def findEnds (anchor : CommentAnchor) :
    List TokenSpan → ℕ → Option ℕ → Option ℕ → Option ℕ × Option ℕ
  | [], _, startIdx, endIdx => (startIdx, endIdx)
  | span :: spans, i, startIdx, endIdx =>
    if anchor.side.isSome ∧ some (readSide span.1) ≠ anchor.side then
      findEnds anchor spans (i + 1) startIdx endIdx
    else
      let lineNum := readLineNumber span.1
      findEnds anchor spans (i + 1)
        (if startIdx = none ∧
            standsAt lineNum span.2.charStart anchor.lineNumberStart anchor.startCharacter then
          some i else startIdx)
        (if standsAt lineNum span.2.charEnd anchor.lineNumberEnd anchor.endCharacter then
          some i else endIdx)

/-- The turn of one comment: `marks` is the `data-comment-id` of each token. -/
def markComment (spans : List TokenSpan) (marks : ℕ → Option Uuid) (comment : ReviewComment) :
    ℕ → Option Uuid :=
  match commentAnchor comment with
  | none => marks
  | some anchor =>
    match findEnds anchor spans 0 none none with
    | (some startIdx, some endIdx) =>
      fun i => if startIdx ≤ i ∧ i ≤ endIdx then some comment.id else marks i
    | _ => marks

def useHighlightComments (spans : List TokenSpan) (comments : List ReviewComment) :
    ℕ → Option Uuid :=
  (comments.filter fun c => decide (c.parentId = none)).foldl (markComment spans) fun _ => none

/-! ### One place, one token -/

section Spans

variable {lines : List DomLine}

/-- A side and a number name one line. -/
theorem pairwise_lines (h : ∀ side, (numbersOn side lines).Pairwise (· < ·)) :
    lines.Pairwise fun a b => readSide a = readSide b → ∀ n, readLineNumber a = some n →
      readLineNumber b ≠ some n := by
  induction lines with
  | nil => exact .nil
  | cons a lines ih =>
    have htail : ∀ side, (numbersOn side lines).Pairwise (· < ·) := fun side => by
      have := h side
      rw [show a :: lines = [a] ++ lines from rfl, numbersOn_append] at this
      exact (List.pairwise_append.mp this).2.1
    refine List.pairwise_cons.mpr ⟨fun b hb hside n ha hbn => ?_, ih htail⟩
    have hmem : n ∈ numbersOn (readSide a) lines :=
      List.mem_filterMap.mpr ⟨b, hb, by rw [if_pos hside.symm, hbn]⟩
    have hall := h (readSide a)
    rw [show a :: lines = [a] ++ lines from rfl, numbersOn_append] at hall
    have hhead : n ∈ numbersOn (readSide a) [a] :=
      List.mem_filterMap.mpr ⟨a, List.mem_cons_self, by rw [if_pos rfl, ha]⟩
    exact lt_irrefl n ((List.pairwise_append.mp hall).2.2 n hhead n hmem)

/-- Tokens on lines with the same side and number go from left to right. -/
theorem pairwise_tokenSpans (h : ∀ side, (numbersOn side lines).Pairwise (· < ·))
    (htiled : Tiled lines) :
    (tokenSpans lines).Pairwise fun a b => readSide a.1 = readSide b.1 →
      ∀ n, readLineNumber a.1 = some n → readLineNumber b.1 = some n → a.2.Before b.2 := by
  refine List.pairwise_flatMap.mpr ⟨fun line hl => ?_, (pairwise_lines h).imp ?_⟩
  · exact List.pairwise_map.mpr ((htiled line hl).imp fun hbefore _ _ _ _ => hbefore)
  · intro a b hab x hx y hy hside n hxn hyn
    obtain ⟨s, _, rfl⟩ := List.mem_map.mp hx
    obtain ⟨t, _, rfl⟩ := List.mem_map.mp hy
    exact absurd hyn (hab hside n hxn)

end Spans

/-! ### Finding the ends -/

section Ends

variable {anchor : CommentAnchor}

/-- The token is on the side of the anchor and starts where it starts. -/
def StartsAnchor (anchor : CommentAnchor) (span : TokenSpan) : Prop :=
  ¬ (anchor.side.isSome ∧ some (readSide span.1) ≠ anchor.side) ∧
    standsAt (readLineNumber span.1) span.2.charStart anchor.lineNumberStart anchor.startCharacter

/-- The token is on the side of the anchor and ends where it ends. -/
def EndsAnchor (anchor : CommentAnchor) (span : TokenSpan) : Prop :=
  ¬ (anchor.side.isSome ∧ some (readSide span.1) ≠ anchor.side) ∧
    standsAt (readLineNumber span.1) span.2.charEnd anchor.lineNumberEnd anchor.endCharacter

instance (span : TokenSpan) : Decidable (StartsAnchor anchor span) :=
  inferInstanceAs (Decidable (_ ∧ _))

instance (span : TokenSpan) : Decidable (EndsAnchor anchor span) :=
  inferInstanceAs (Decidable (_ ∧ _))

theorem findEnds_cons (span : TokenSpan) (spans : List TokenSpan) (i : ℕ) (s e : Option ℕ) :
    findEnds anchor (span :: spans) i s e = findEnds anchor spans (i + 1)
      (if s = none ∧ StartsAnchor anchor span then some i else s)
      (if EndsAnchor anchor span then some i else e) := by
  rw [findEnds]
  by_cases hside : anchor.side.isSome ∧ some (readSide span.1) ≠ anchor.side
  · rw [if_pos hside, if_neg fun h => h.2.1 hside, if_neg fun h => h.1 hside]
  · rw [if_neg hside]
    simp only [StartsAnchor, EndsAnchor, hside, not_false_eq_true, true_and]

/-- A start that is found stays. -/
theorem findEnds_some : ∀ (spans : List TokenSpan) (i s : ℕ) (e : Option ℕ),
    (findEnds anchor spans i (some s) e).1 = some s
  | [], _, _, _ => rfl
  | span :: spans, i, s, e => by
    rw [findEnds_cons, if_neg fun h => Option.some_ne_none s h.1]
    exact findEnds_some spans _ s _

/-- The start is the first token that starts the anchor. -/
theorem findEnds_start {x : TokenSpan} {post : List TokenSpan} (hx : StartsAnchor anchor x) :
    ∀ (pre : List TokenSpan) (i : ℕ) (e : Option ℕ), (∀ y ∈ pre, ¬ StartsAnchor anchor y) →
      (findEnds anchor (pre ++ x :: post) i none e).1 = some (i + pre.length)
  | [], i, e, _ => by
    rw [List.nil_append, findEnds_cons, if_pos ⟨rfl, hx⟩]
    exact findEnds_some post _ i _
  | y :: pre, i, e, hpre => by
    rw [List.cons_append, findEnds_cons, if_neg fun h => hpre y List.mem_cons_self h.2,
      findEnds_start hx pre _ _ fun z hz => hpre z (List.mem_cons_of_mem y hz), List.length_cons]
    congr 1
    omega

/-- Without a token that ends the anchor the end stays what it was. -/
theorem findEnds_end_none : ∀ (spans : List TokenSpan) (i : ℕ) (s e : Option ℕ),
    (∀ y ∈ spans, ¬ EndsAnchor anchor y) → (findEnds anchor spans i s e).2 = e
  | [], _, _, _, _ => rfl
  | y :: spans, i, s, e, h => by
    rw [findEnds_cons, if_neg (c := EndsAnchor anchor y) (h y List.mem_cons_self)]
    exact findEnds_end_none spans _ _ e fun z hz => h z (List.mem_cons_of_mem y hz)

/-- The end is the last token that ends the anchor. -/
theorem findEnds_end {x : TokenSpan} {post : List TokenSpan} (hx : EndsAnchor anchor x)
    (hpost : ∀ y ∈ post, ¬ EndsAnchor anchor y) :
    ∀ (pre : List TokenSpan) (i : ℕ) (s e : Option ℕ),
      (findEnds anchor (pre ++ x :: post) i s e).2 = some (i + pre.length)
  | [], i, s, e => by
    rw [List.nil_append, findEnds_cons, findEnds_end_none post _ _ _ hpost, if_pos hx]
    rfl
  | y :: pre, i, s, e => by
    rw [List.cons_append, findEnds_cons, findEnds_end hx hpost pre, List.length_cons]
    congr 1
    omega

/-- What is found for the end is a token that ends the anchor. -/
theorem endsAnchor_of_findEnds : ∀ (spans : List TokenSpan) (i : ℕ) (s e : Option ℕ) {k : ℕ},
    (findEnds anchor spans i s e).2 = some k →
      e = some k ∨ ∃ m span, k = i + m ∧ spans[m]? = some span ∧ EndsAnchor anchor span
  | [], _, _, _, _, h => .inl h
  | y :: spans, i, s, e, k, h => by
    rw [findEnds_cons] at h
    rcases endsAnchor_of_findEnds spans _ _ _ h with he | ⟨m, span, rfl, hm, hends⟩
    · split_ifs at he with hy
      · exact .inr ⟨0, y, (Option.some.inj he).symm, rfl, hy⟩
      · exact .inl he
    · exact .inr ⟨m + 1, span, by omega, hm, hends⟩

end Ends

/-! ### The round trip -/

namespace RenderedDiff

variable (d : RenderedDiff)

/-- The tokens of the diff down the page. -/
def spans : List TokenSpan := tokenSpans d.lines

/-- The sides of the first and the last selected token. -/
def SameSide (startIdx endIdx : ℕ) : Prop :=
  d.spans[min startIdx endIdx]?.map (fun span => readSide span.1) =
    d.spans[max startIdx endIdx]?.map fun span => readSide span.1

/-- The comment, as the last of any others, marks exactly the tokens from the
one index to the other. -/
def RoundTrips (startIdx endIdx : ℕ) (comment : ReviewComment) : Prop :=
  ∀ earlier : List ReviewComment, (∀ c ∈ earlier, c.id ≠ comment.id) → ∀ k,
    useHighlightComments d.spans (earlier ++ [comment]) k = some comment.id ↔
      min startIdx endIdx ≤ k ∧ k ≤ max startIdx endIdx

end RenderedDiff

section RoundTrip

variable {d : RenderedDiff} {startIdx endIdx : ℕ} {range : SelectionRange}

/-- A selection dragged in either direction is that from its first token to its
last. -/
theorem computeSelectionRange_eq (spans : List TokenSpan) (startIdx endIdx : ℕ) :
    computeSelectionRange spans startIdx endIdx (decide (endIdx < startIdx)) =
      computeSelectionRange spans (min startIdx endIdx) (max startIdx endIdx) false := by
  unfold computeSelectionRange
  rcases Nat.lt_or_ge endIdx startIdx with h | h
  · simp only [h, decide_true, if_true, Nat.min_eq_right h.le, Nat.max_eq_left h.le,
      Bool.false_eq_true, if_false]
  · simp only [Nat.not_lt.mpr h, decide_false, Nat.min_eq_left h, Nat.max_eq_right h,
      Bool.false_eq_true, if_false]

theorem markComment_cases (spans : List TokenSpan) (marks : ℕ → Option Uuid)
    (comment : ReviewComment) (k : ℕ) :
    markComment spans marks comment k = marks k ∨
      markComment spans marks comment k = some comment.id := by
  unfold markComment
  cases commentAnchor comment with
  | none => exact .inl rfl
  | some anchor =>
    dsimp only
    generalize findEnds anchor spans 0 none none = ends
    rcases ends with ⟨_ | s, _ | e⟩
    · exact .inl rfl
    · exact .inl rfl
    · exact .inl rfl
    · dsimp only
      split_ifs
      · exact .inr rfl
      · exact .inl rfl

/-- What the others marked is not the comment's. -/
theorem foldl_markComment_ne (spans : List TokenSpan) {id : Uuid} :
    ∀ (comments : List ReviewComment) (marks : ℕ → Option Uuid), (∀ k, marks k ≠ some id) →
      (∀ c ∈ comments, c.id ≠ id) → ∀ k, comments.foldl (markComment spans) marks k ≠ some id
  | [], _, hmarks, _, k => hmarks k
  | c :: comments, marks, hmarks, hids, k => by
    refine foldl_markComment_ne spans comments _ (fun i => ?_)
      (fun x hx => hids x (List.mem_cons_of_mem c hx)) k
    rcases markComment_cases spans marks c i with h | h
    · rw [h]
      exact hmarks i
    · rw [h]
      exact fun heq => hids c List.mem_cons_self (Option.some.inj heq)

/-- What a comment marks whose anchor is found, whatever stands before it. -/
theorem highlight_iff {spans : List TokenSpan} {comment : ReviewComment} {anchor : CommentAnchor}
    {s e : ℕ} (htop : comment.parentId = none) (hanchor : commentAnchor comment = some anchor)
    (hends : findEnds anchor spans 0 none none = (some s, some e)) (earlier : List ReviewComment)
    (hids : ∀ c ∈ earlier, c.id ≠ comment.id) (k : ℕ) :
    useHighlightComments spans (earlier ++ [comment]) k = some comment.id ↔ s ≤ k ∧ k ≤ e := by
  have hne := foldl_markComment_ne spans (earlier.filter fun c => decide (c.parentId = none))
    (fun _ => none) (fun _ h => by cases h)
    (fun c hc => hids c (List.mem_filter.mp hc).1) k
  rw [useHighlightComments, List.filter_append, List.foldl_append,
    List.filter_cons_of_pos (by simpa using htop)]
  generalize (earlier.filter fun c => decide (c.parentId = none)).foldl (markComment spans)
    (fun _ => none) = marks at hne
  show markComment spans marks comment k = some comment.id ↔ _
  simp only [markComment, hanchor, hends]
  split_ifs with hk
  · exact iff_of_true rfl hk
  · exact iff_of_false hne hk

/-- What a comment marks whose anchor has no end on its side. -/
theorem highlight_none {spans : List TokenSpan} {comment : ReviewComment} {anchor : CommentAnchor}
    (hanchor : commentAnchor comment = some anchor)
    (hends : (findEnds anchor spans 0 none none).2 = none) (k : ℕ) :
    useHighlightComments spans [comment] k = none := by
  generalize h : findEnds anchor spans 0 none none = ends at hends
  obtain ⟨s, e⟩ := ends
  obtain rfl : e = none := hends
  unfold useHighlightComments
  by_cases htop : comment.parentId = none
  · rw [List.filter_cons_of_pos (by simpa using htop)]
    show markComment spans (fun _ => none) comment k = none
    simp only [markComment, hanchor, h]
  · rw [List.filter_cons_of_neg (by simpa using htop)]
    rfl

theorem standsAt_iff {lineNum : Option ℕ} {char n m : ℕ} :
    standsAt lineNum char n m ↔ lineNum = some n ∧ char = m := by
  refine and_congr ?_ Int.natCast_inj
  cases lineNum with
  | none => simp
  | some k => simp

/-- An anchor with a side takes the tokens on it. -/
theorem onSide_iff {anchor : CommentAnchor} {side : CommentSide} (h : anchor.side = some side)
    (span : TokenSpan) :
    ¬ (anchor.side.isSome ∧ some (readSide span.1) ≠ anchor.side) ↔ readSide span.1 = side := by
  simp [h]

/-- The anchor a selection is stored as. -/
def SelectionRange.anchor (range : SelectionRange) : CommentAnchor :=
  ⟨range.lineNumberStart, range.lineNumberEnd, range.startCharacter, range.endCharacter,
    some range.side⟩

theorem startsAnchor_iff {range : SelectionRange} {span : TokenSpan} :
    StartsAnchor range.anchor span ↔ readSide span.1 = range.side ∧
      readLineNumber span.1 = some range.lineNumberStart ∧
      span.2.charStart = range.startCharacter :=
  and_congr (onSide_iff rfl span) standsAt_iff

theorem endsAnchor_iff {range : SelectionRange} {span : TokenSpan} :
    EndsAnchor range.anchor span ↔ readSide span.1 = range.side ∧
      readLineNumber span.1 = some range.lineNumberEnd ∧ span.2.charEnd = range.endCharacter :=
  and_congr (onSide_iff rfl span) standsAt_iff

theorem split_at {spans : List TokenSpan} {i : ℕ} {x : TokenSpan} (h : spans[i]? = some x) :
    spans = spans.take i ++ x :: spans.drop (i + 1) ∧ (spans.take i).length = i := by
  obtain ⟨hi, rfl⟩ := List.getElem?_eq_some_iff.mp h
  exact ⟨by rw [← List.drop_eq_getElem_cons hi, List.take_append_drop], List.length_take_of_le hi.le⟩

/-- Tokens in their order, as `pairwise_tokenSpans` has them. -/
def InOrder (spans : List TokenSpan) : Prop :=
  spans.Pairwise fun a b => readSide a.1 = readSide b.1 → ∀ n, readLineNumber a.1 = some n →
    readLineNumber b.1 = some n → a.2.Before b.2

/-- The start of an anchor is found at the one token that starts it. -/
theorem findEnds_fst {spans : List TokenSpan} {first : TokenSpan} {i : ℕ}
    (horder : InOrder spans) (hfirst : spans[i]? = some first)
    (hstarts : StartsAnchor range.anchor first) :
    (findEnds range.anchor spans 0 none none).1 = some i := by
  obtain ⟨hsplit, hlen⟩ := split_at hfirst
  obtain ⟨hside, hnum, hchar⟩ := startsAnchor_iff.mp hstarts
  have hpre : ∀ y ∈ spans.take i, ¬ StartsAnchor range.anchor y := by
    intro y hy hys
    obtain ⟨hyside, hynum, hychar⟩ := startsAnchor_iff.mp hys
    rw [InOrder, hsplit] at horder
    have hbefore := (List.pairwise_append.mp horder).2.2 y hy first List.mem_cons_self
      (hyside.trans hside.symm) _ hynum hnum
    have := hbefore.1
    omega
  rw [hsplit, findEnds_start hstarts (spans.take i) 0 none hpre, hlen, Nat.zero_add]

/-- Its end is found at the one token that ends it. -/
theorem findEnds_snd {spans : List TokenSpan} {last : TokenSpan} {j : ℕ}
    (horder : InOrder spans) (hlast : spans[j]? = some last)
    (hends : EndsAnchor range.anchor last) :
    (findEnds range.anchor spans 0 none none).2 = some j := by
  obtain ⟨hsplit, hlen⟩ := split_at hlast
  obtain ⟨hside, hnum, hchar⟩ := endsAnchor_iff.mp hends
  have hpost : ∀ y ∈ spans.drop (j + 1), ¬ EndsAnchor range.anchor y := by
    intro y hy hye
    obtain ⟨hyside, hynum, hychar⟩ := endsAnchor_iff.mp hye
    rw [InOrder, hsplit] at horder
    have hbefore := (List.pairwise_cons.mp (List.pairwise_append.mp horder).2.1).1 y hy
      (hside.trans hyside.symm) _ hnum hynum
    have := hbefore.2
    omega
  have hfound := findEnds_end hends hpost (spans.take j) 0 none none
  rwa [← hsplit, hlen, Nat.zero_add] at hfound

/-- **When an anchor round-trips.** On every rendered diff, for every selection
that is accepted, dragged in either direction, the stored comment marks
exactly the selected tokens if and only if the selection ends on the side on
which it starts. -/
theorem anchor_roundTrip_iff (d : RenderedDiff) (startIdx endIdx : ℕ) (range : SelectionRange)
    (path : String) (comment : ReviewComment)
    (hrange : computeSelectionRange d.spans startIdx endIdx (decide (endIdx < startIdx)) = some range)
    (htop : comment.parentId = none) (hplace : comment.place = range.place path) :
    d.RoundTrips startIdx endIdx comment ↔ d.SameSide startIdx endIdx := by
  have hanchor : commentAnchor comment = some range.anchor := by
    rw [commentAnchor, hplace]
    rfl
  have horder : InOrder d.spans := pairwise_tokenSpans d.pairwise_numbers d.tiled_lines
  rw [computeSelectionRange_eq] at hrange
  unfold RenderedDiff.RoundTrips RenderedDiff.SameSide
  have hle : min startIdx endIdx ≤ max startIdx endIdx := min_le_max
  generalize min startIdx endIdx = i at hrange hle ⊢
  generalize max startIdx endIdx = j at hrange hle ⊢
  simp only [computeSelectionRange, Bool.false_eq_true, if_false, Option.bind_eq_bind,
    Option.bind_eq_some_iff] at hrange
  obtain ⟨first, hfirst, last, hlast, n, hn, m, hm, hrange⟩ := hrange
  have hfields := Option.some.inj hrange
  have hside : readSide first.1 = range.side := congrArg SelectionRange.side hfields
  have hstart := findEnds_fst horder hfirst
    (startsAnchor_iff.mpr ⟨hside, by rw [hn, ← hfields], by rw [← hfields]⟩)
  rw [hfirst, hlast, Option.map_some, Option.map_some, Option.some.injEq, hside]
  constructor
  · intro htrip
    have hmark := fun k => htrip [] (fun _ h => absurd h List.not_mem_nil) k
    cases hend : (findEnds range.anchor d.spans 0 none none).2 with
    | none =>
      have hnone := highlight_none hanchor hend j
      rw [List.nil_append] at hmark
      rw [(hmark j).mpr ⟨hle, le_rfl⟩] at hnone
      cases hnone
    | some e =>
      have hiff := fun k => highlight_iff htop hanchor (Prod.ext hstart hend) []
        (fun _ h => absurd h List.not_mem_nil) k
      have hej : e = j := by
        have hj := (hiff j).mp ((hmark j).mpr ⟨hle, le_rfl⟩)
        have he := (hmark e).mp ((hiff e).mpr ⟨hj.1.trans hj.2, le_rfl⟩)
        omega
      rcases endsAnchor_of_findEnds d.spans 0 none none hend with h | ⟨k, span, rfl, hk, hends⟩
      · cases h
      · rw [Nat.zero_add] at hej
        rw [hej] at hk
        obtain rfl := Option.some.inj (hk.symm.trans hlast)
        exact (endsAnchor_iff.mp hends).1.symm
  · intro hsame earlier hids k
    -- both ends are on the side of the anchor, where each is found at one token
    have hend := findEnds_snd horder hlast
      (endsAnchor_iff.mpr ⟨hsame.symm, by rw [hm, ← hfields], by rw [← hfields]⟩)
    exact highlight_iff htop hanchor (Prod.ext hstart hend) earlier hids k

end RoundTrip

/-- A text of one line, which is replaced. -/
def replacedLine : RenderedDiff where
  left := ["a".toList]
  right := ["b".toList]
  hunks := [⟨[(some 0, some 0)], {0}, {0}⟩]
  trail :=
    .next (g := 0) (a := 1) (b := 1) ⟨by decide, by decide, fun _ hk => absurd hk (Nat.not_lt_zero _)⟩
      { left := rfl
        right := rfl
        inLeft := by decide
        inRight := by decide
        removed_bound := by decide
        added_bound := by decide
        paired := by simp
        onlyLeft := by simp
        onlyRight := by simp
        balance := rfl }
      (.last (g := 0) ⟨by decide, by decide, fun _ hk => absurd hk (Nat.not_lt_zero _)⟩ rfl rfl)
  leftTokens := [[⟨0, 1⟩]]
  rightTokens := [[⟨0, 1⟩]]
  leftTiled := by simp
  rightTiled := by simp
  layout := .unified
  expanded := fun _ => false

/-- The removed line stands above the added one. -/
theorem spans_replacedLine : replacedLine.spans =
    [(⟨none, some 1, none, .removed, none, [⟨0, 1⟩]⟩, ⟨0, 1⟩),
      (⟨none, none, some 1, .added, none, [⟨0, 1⟩]⟩, ⟨0, 1⟩)] := by
  have hchanged :
      isChanged replacedLine.leftSpans replacedLine.rightSpans (some 0, some 0) = true := by decide
  have hsection : unifiedSection replacedLine.leftSpans replacedLine.rightSpans
      [(some 0, some 0)] = pushMinus replacedLine.leftSpans (some 0, some 0) ++
        pushPlus replacedLine.rightSpans (some 0, some 0) := by
    simp [unifiedSection, renderModified, hchanged]
  have hlines : replacedLine.lines = unifiedSection replacedLine.leftSpans replacedLine.rightSpans
      [(some 0, some 0)] := List.append_nil _
  rw [RenderedDiff.spans, hlines, hsection]
  rfl

/-- A comment on the selection of both lines. -/
def replacedComment : ReviewComment :=
  ⟨40, 31, ⟨31, 1⟩, ⟨⟨31, 1⟩, 1⟩, 2, none, "",
    (⟨1, 1, 0, 1, .old⟩ : SelectionRange).place "a.txt", false⟩

theorem computeSelectionRange_replacedLine :
    computeSelectionRange replacedLine.spans 0 1 (decide (1 < 0)) = some ⟨1, 1, 0, 1, .old⟩ := by
  rw [spans_replacedLine]
  decide

theorem anchor_roundTrip_iff_replacedLine :
    replacedLine.RoundTrips 0 1 replacedComment ↔ replacedLine.SameSide 0 1 :=
  anchor_roundTrip_iff replacedLine 0 1 ⟨1, 1, 0, 1, .old⟩ "a.txt" replacedComment
    computeSelectionRange_replacedLine rfl rfl

/-- A comment on a removed line and the added one below it marks the removed
line only. -/
theorem not_anchor_roundTrip :
    ¬ ∀ (d : RenderedDiff) (startIdx endIdx : ℕ) (range : SelectionRange) (path : String)
      (comment : ReviewComment),
      computeSelectionRange d.spans startIdx endIdx (decide (endIdx < startIdx)) = some range →
      comment.parentId = none → comment.place = range.place path →
      d.RoundTrips startIdx endIdx comment := by
  intro h
  have htrip := h replacedLine 0 1 _ "a.txt" replacedComment computeSelectionRange_replacedLine rfl rfl
  have hmark := (htrip [] (fun _ hc => absurd hc List.not_mem_nil) 1).mpr ⟨by decide, by decide⟩
  rw [spans_replacedLine] at hmark
  exact absurd hmark (by decide)

end Gitdot
