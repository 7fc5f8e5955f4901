/-
# Fuzzy search: the scan

`fuzzyMatch` looks for the characters of a query in a target, in their order.
A search in the style of `indexOf` first cuts the target down to a window
(`asciiFuzzyIndex`), and a scan of the window then notes the first place of
each character (`F`), the last place of the last one and what each place
scores for the first character. Out of these a matrix of scores is filled,
and walked back for the positions.

The scan is a greedy search (`Scanned.left`): all characters are found exactly
if the query embeds in the window.

Key definitions: `Unicode`, `charClassOf`, `bonusFor`, `asciiFuzzyIndex`,
`Scan.step`, `fillMatrix`, `backtrace`, `fuzzyMatch`.
Key theorems: `charClassOf_eq_upper`, `readChar_eq`, `Scanned.step`,
`Scanned.run`.
-/
import Gitdot.Lib.Subsequence
import Mathlib.Data.Int.Basic
import Mathlib.Data.List.Basic
import Mathlib.Order.MinMax
import Mathlib.Tactic.Common

namespace Gitdot
namespace Fuzzy

open Lib

/-! ### Strings -/

/-- The code units of a string, in UTF-16. -/
abbrev JsString := List ℕ

/-- `A` to `Z`. -/
def isUpper (c : ℕ) : Bool := decide (65 ≤ c ∧ c ≤ 90)

/-- `a` to `z`. -/
def isLower (c : ℕ) : Bool := decide (97 ≤ c ∧ c ≤ 122)

/-- `0` to `9`. -/
def isDigit (c : ℕ) : Bool := decide (48 ≤ c ∧ c ≤ 57)

/-- `toLowerCase` of an ASCII character. -/
def asciiLower (c : ℕ) : ℕ := if isUpper c then c + 32 else c

/-- `toUpperCase` of an ASCII character. -/
def asciiUpper (c : ℕ) : ℕ := if isLower c then c - 32 else c

/-- What `toLowerCase` makes of a code unit. Of those outside ASCII the Kelvin
sign alone becomes an ASCII letter, and the dotted capital I an `i` with a dot. -/
def LowersTo (c : ℕ) (piece : JsString) : Prop :=
  if c < 128 then piece = [asciiLower c]
  else if c = 0x212A then piece = [0x6B]
  else if c = 0x130 then piece = [0x69, 0x307]
  else piece ≠ [] ∧ ∀ d ∈ piece, 128 ≤ d

/-- What the runtime knows of Unicode. Lower case goes code unit by code unit,
though what one becomes may depend on where it stands. -/
structure Unicode where
  toLowerCase : JsString → JsString
  toUpperCase : JsString → JsString
  /-- `/\p{L}/u`. -/
  isLetter : ℕ → Bool
  lowers : ∀ s, ∃ pieces, List.Forall₂ LowersTo s pieces ∧ toLowerCase s = pieces.flatten

/-! ### Character classification -/

inductive CharClass where
  | white
  | nonWord
  | delimiter
  | lower
  | upper
  | letter
  | number
  deriving DecidableEq

/-- `/,:;|`. -/
def delimiterChars : JsString := [0x2F, 0x2C, 0x3A, 0x3B, 0x7C]

/-- Blank, tab, newline, vertical tab, form feed, carriage return, and two
that are not ASCII. -/
def whiteChars : JsString := [0x20, 0x09, 0x0A, 0x0B, 0x0C, 0x0D, 0x85, 0xA0]

/-- `asciiCharClasses`. -/
def asciiCharClass (c : ℕ) : CharClass :=
  if isLower c then .lower
  else if isUpper c then .upper
  else if isDigit c then .number
  else if c ∈ whiteChars then .white
  else if c ∈ delimiterChars then .delimiter
  else .nonWord

/-- `/\s/`. -/
def isSpace (c : ℕ) : Bool :=
  decide (9 ≤ c ∧ c ≤ 13 ∨ 0x2000 ≤ c ∧ c ≤ 0x200A ∨
    c ∈ [0x20, 0xA0, 0x1680, 0x2028, 0x2029, 0x202F, 0x205F, 0x3000, 0xFEFF])

section

variable (u : Unicode)

def charClassOfNonAscii (c : ℕ) : CharClass :=
  if (u.toLowerCase [c]).any isLower ∧ [c] = u.toLowerCase [c] then .lower
  else if (u.toUpperCase [c]).any isUpper ∧ [c] = u.toUpperCase [c] then .upper
  else if isDigit c then .number
  else if u.isLetter c then .letter
  else if isSpace c then .white
  else if c ∈ delimiterChars then .delimiter
  else .nonWord

def charClassOf (c : ℕ) : CharClass :=
  if c < 128 then asciiCharClass c else charClassOfNonAscii u c

end

/-! ### Scores -/

def scoreMatch : ℤ := 16

def scoreGapStart : ℤ := -3

def scoreGapExtension : ℤ := -1

def bonusBoundary : ℤ := scoreMatch / 2

def bonusNonWord : ℤ := scoreMatch / 2

def bonusCamel123 : ℤ := bonusBoundary + scoreGapExtension

def bonusConsecutive : ℤ := -(scoreGapStart + scoreGapExtension)

def bonusFirstCharMultiplier : ℤ := 2

def bonusBoundaryWhite : ℤ := bonusBoundary + 2

def bonusBoundaryDelimiter : ℤ := bonusBoundary + 1

/-- `currClass > CharClass.NonWord`. -/
def CharClass.isAfterNonWord : CharClass → Bool
  | .white | .nonWord => false
  | _ => true

def bonusFor (prevClass currClass : CharClass) : ℤ :=
  if currClass.isAfterNonWord ∧ prevClass = .white then bonusBoundaryWhite
  else if currClass.isAfterNonWord ∧ prevClass = .delimiter then bonusBoundaryDelimiter
  else if currClass.isAfterNonWord ∧ prevClass = .nonWord then bonusBoundary
  else if prevClass = .lower ∧ currClass = .upper ∨ prevClass ≠ .number ∧ currClass = .number then
    bonusCamel123
  else
    match currClass with
    | .nonWord | .delimiter => bonusNonWord
    | .white => bonusBoundaryWhite
    | _ => 0

theorem bonusFor_nonneg (prevClass currClass : CharClass) : 0 ≤ bonusFor prevClass currClass := by
  cases prevClass <;> cases currClass <;> decide

/-! ### The window -/

def isAscii (pattern : JsString) : Bool := pattern.all fun c => decide (c < 128)

/-- `text.indexOf(b, from)`. -/
def indexOf (text : JsString) (b start : ℕ) : Option ℕ :=
  ((text.drop start).findIdx? (· == b)).map (start + ·)

/-- `text.substring(start, stop)`. -/
def substring (text : JsString) (start stop : ℕ) : JsString := (text.drop start).take (stop - start)

/-- The uppercase version of `b` in the text that is left to search. -/
def indexOfUpper (searchText : JsString) (b : ℕ) : Option ℕ :=
  let upperB := asciiUpper b
  if b ≠ upperB then indexOf searchText upperB 0 else none

/-- `trySkip`, for an ASCII character; `none` is -1. -/
def trySkip (text : JsString) (b start : ℕ) : Option ℕ :=
  let idx := indexOf text b start
  if idx = some start then some start
  else
    let searchText :=
      match idx with
      | some (k + 1) => substring text start (k + 1)
      | _ => text.drop start
    match indexOfUpper searchText b with
    | some uidx => some (start + uidx)
    | none => idx

/-- The loop over the pattern: where the first character was found, stepped
back by one, and where the last one was. -/
def skipAll (text : JsString) : JsString → Bool → ℕ → ℕ → ℕ → Option (ℕ × ℕ)
  | [], _, _, firstIdx, lastIdx => some (firstIdx, lastIdx)
  | q :: pattern, isFirst, idx, firstIdx, _ => do
    let idx ← trySkip text (asciiLower q) idx
    skipAll text pattern false (idx + 1) (if isFirst ∧ 0 < idx then idx - 1 else firstIdx) idx

/-- The loop from the end of the scope down to 1. -/
def lastAppearance (scope : JsString) (lastChar lastCharUpper : ℕ) : ℕ → Option ℕ
  | 0 => none
  | offset + 1 =>
    if scope[offset + 1]? = some lastChar ∨ scope[offset + 1]? = some lastCharUpper then
      some (offset + 1)
    else lastAppearance scope lastChar lastCharUpper offset

/-- `asciiFuzzyIndex`; `none` is `[-1, -1]`. -/
def asciiFuzzyIndex (text pattern : JsString) : Option (ℕ × ℕ) := do
  if isAscii pattern = false then none
  let (firstIdx, lastIdx) ← skipAll text pattern true 0 0 0
  let lastChar := asciiLower (← pattern.getLast?)
  let scope := text.drop lastIdx
  match lastAppearance scope lastChar (asciiUpper lastChar) (scope.length - 1) with
  | some offset => some (firstIdx, lastIdx + offset + 1)
  | none => some (firstIdx, lastIdx + 1)

/-! ### The scan -/

/-- The arrays and variables of the second phase. `pidx` is the length of `F`. -/
structure Scan where
  T : List JsString
  B : List ℤ
  H0 : List ℤ
  C0 : List ℤ
  F : List ℤ
  lastIdx : ℤ
  maxScore : ℤ
  maxScorePos : ℤ
  prevH0 : ℤ
  prevClass : CharClass
  inGap : Bool

/-- Before the first character. -/
def Scan.initial (prevClass : CharClass) : Scan := ⟨[], [], [], [], [], 0, 0, 0, 0, prevClass, false⟩

section

variable (u : Unicode) (caseSensitive : Bool) (pattern : JsString)

/-- The character of the target, in lower case where its class is `Upper`. -/
def readChar (unit : ℕ) : JsString :=
  if caseSensitive = false ∧ charClassOf u unit = .upper then u.toLowerCase [unit] else [unit]

/-- `pattern[k] === char`. -/
abbrev IsChar (k : ℕ) (char : JsString) : Prop := pattern[k]?.map (fun q => [q]) = some char

/-- The score of a place for the first character. -/
def Scan.firstScore (st : Scan) (unit : ℕ) : ℤ :=
  scoreMatch + bonusFor st.prevClass (charClassOf u unit) * bonusFirstCharMultiplier

/-- What goes into `H0`: a score, or what a gap leaves of the one before. -/
def Scan.nextH0 (st : Scan) (unit : ℕ) : ℤ :=
  if IsChar pattern 0 (readChar u caseSensitive unit) then st.firstScore u unit
  else max (st.prevH0 + if st.inGap then scoreGapExtension else scoreGapStart) 0

/-- One turn of the loop over the window. -/
def Scan.step (st : Scan) (unit : ℕ) : Scan :=
  let off : ℤ := st.T.length
  let char := readChar u caseSensitive unit
  let pidx := st.F.length
  let isPchar := IsChar pattern (min pidx (pattern.length - 1)) char
  let isPchar0 := IsChar pattern 0 char
  let score := st.firstScore u unit
  let isBest := isPchar0 ∧ pattern.length = 1 ∧ st.maxScore < score
  { T := st.T ++ [char]
    B := st.B ++ [bonusFor st.prevClass (charClassOf u unit)]
    H0 := st.H0 ++ [st.nextH0 u caseSensitive pattern unit]
    C0 := st.C0 ++ [if isPchar0 then 1 else 0]
    F := if isPchar ∧ pidx < pattern.length then st.F ++ [off] else st.F
    lastIdx := if isPchar then off else st.lastIdx
    maxScore := if isBest then score else st.maxScore
    maxScorePos := if isBest then off else st.maxScorePos
    prevH0 := st.nextH0 u caseSensitive pattern unit
    prevClass := charClassOf u unit
    inGap := decide (¬ isPchar0) }

/-- The early exit of a pattern of one character. -/
def Scan.stops (st : Scan) (unit : ℕ) : Prop :=
  IsChar pattern 0 (readChar u caseSensitive unit) ∧ pattern.length = 1 ∧
    st.maxScore < st.firstScore u unit ∧
    bonusBoundary ≤ bonusFor st.prevClass (charClassOf u unit)

instance (st : Scan) (unit : ℕ) : Decidable (st.stops u caseSensitive pattern unit) :=
  inferInstanceAs (Decidable (_ ∧ _))

def Scan.run (st : Scan) : JsString → Scan
  | [] => st
  | unit :: units =>
    if st.stops u caseSensitive pattern unit then st.step u caseSensitive pattern unit
    else (st.step u caseSensitive pattern unit).run units

/-- The class of the character in front of the window. -/
def classBefore (text : JsString) : ℕ → CharClass
  | 0 => .white
  | k + 1 => (text[k]?.map (charClassOf u)).getD .white

/-- The scan of the window. -/
def scanWindow (text : JsString) (minIdx maxIdx : ℕ) : Scan :=
  (Scan.initial (classBefore u text minIdx)).run u caseSensitive pattern
    (substring text minIdx maxIdx)

end

/-! ### The matrix -/

/-- `a[k]`, undefined outside. -/
def item {α : Type} (a : List α) (k : ℤ) : Option α := if 0 ≤ k then a[k.toNat]? else none

/-- The arrays `H` and `C` and the variables of the third phase. A cell that is
not filled is undefined. -/
structure Matrix where
  H : ℤ → Option ℤ
  C : ℤ → Option ℤ
  inGap : Bool
  maxScore : ℤ
  maxScorePos : ℤ

section

variable (pattern : JsString) (st : Scan) (f0 width : ℤ)

/-- The first row is that of the scan. `inGap` is set at the start of every row. -/
def firstRow : Matrix :=
  { H := fun k => if 0 ≤ k ∧ k < width then item st.H0 (f0 + k) else none
    C := fun k => if 0 ≤ k ∧ k < width then item st.C0 (f0 + k) else none
    inGap := false
    maxScore := st.maxScore
    maxScorePos := st.maxScorePos }

/-- The score of a match behind a cell with this score and this run of
consecutive matches, and the run it ends. `none` is a read of a cell that is
not filled. -/
def matchScore (diagonal before s2 j : ℤ) : Option (ℤ × ℤ) := do
  let s1 := diagonal + scoreMatch
  let bonus ← item st.B j
  let consecutive := before + 1
  let (b, consecutive) ← if 1 < consecutive then do
      let fb ← item st.B (j - consecutive + 1)
      -- break the consecutive chunk
      if bonusBoundary ≤ bonus ∧ fb < bonus then some (bonus, 1)
      else some (max (max bonus bonusConsecutive) fb, consecutive)
    else some (bonus, consecutive)
  if s1 + b < s2 then some (s1 + bonus, 0) else some (s1 + b, consecutive)

/-- The end of a turn: the cell is written, and the best score of the last row
moved. -/
def Matrix.write (m : Matrix) (i : ℕ) (j s1 s2 consecutive : ℤ) : Matrix :=
  let score := max (max s1 s2) 0
  let isBest := i + 1 = pattern.length ∧ m.maxScore < score
  { H := Function.update m.H (i * width + (j - f0)) (some score)
    C := Function.update m.C (i * width + (j - f0)) (some consecutive)
    inGap := decide (s1 < s2)
    maxScore := if isBest then score else m.maxScore
    maxScorePos := if isBest then j else m.maxScorePos }

/-- A gap started or extended from the left, in a row that starts at `f`. -/
def fromLeft (i : ℕ) (f : ℤ) (m : Matrix) (j : ℤ) : Option ℤ :=
  if f < j then
    (m.H (i * width + (j - f0) - 1)).map
      (· + if m.inGap then scoreGapExtension else scoreGapStart)
  else some 0

/-- A match, from the cell one row up and one column back. -/
def fromDiagonal (i : ℕ) (pchar : ℕ) (char : JsString) (s2 : ℤ) (m : Matrix) (j : ℤ) :
    Option (ℤ × ℤ) :=
  if [pchar] = char then do
    let diagonal ← m.H (i * width - width + (j - f0) - 1)
    let before ← m.C (i * width - width + (j - f0) - 1)
    matchScore st diagonal before s2 j
  else some (0, 0)

/-- One turn of the loop over the columns of row `i`, whose character is first
found at `f`. -/
def fillCell (i : ℕ) (f : ℤ) (pchar : ℕ) (m : Matrix) (j : ℤ) : Option Matrix := do
  let char ← item st.T j
  let s2 ← fromLeft f0 width i f m j
  let (s1, consecutive) ← fromDiagonal st f0 width i pchar char s2 m j
  some (m.write pattern f0 width i j s1 s2 consecutive)

/-- The columns from `j` on, so many of them. -/
def fillRow (i : ℕ) (f : ℤ) (pchar : ℕ) : ℕ → ℤ → Matrix → Option Matrix
  | 0, _, m => some m
  | n + 1, j, m => do
    let m ← fillCell pattern st f0 width i f pchar m j
    fillRow i f pchar n (j + 1) m

/-- The rows from `i` on, so many of them. -/
def fillRows : ℕ → ℕ → Matrix → Option Matrix
  | 0, _, m => some m
  | n + 1, i, m => do
    let f ← st.F[i]?
    let pchar ← pattern[i]?
    let m ← fillRow pattern st f0 width i f pchar (st.lastIdx - f + 1).toNat f { m with inGap := false }
    fillRows n (i + 1) m

def fillMatrix : Option Matrix :=
  fillRows pattern st f0 width (pattern.length - 1) 1 (firstRow st f0 width)

/-! ### The positions -/

/-- Whether a turn takes the place as a match. -/
def IsMatch (s s1 s2 : ℤ) (preferMatch : Bool) : Prop := s1 < s ∧ (s2 < s ∨ s = s2 ∧ preferMatch)

instance (s s1 s2 : ℤ) (preferMatch : Bool) : Decidable (IsMatch s s1 s2 preferMatch) :=
  inferInstanceAs (Decidable (_ ∧ _))

/-- `preferMatch` for the next turn, where this cell ends a run of `c`. A cell
below that is not filled is undefined, and `undefined > 0` is false. -/
def preferNext (m : Matrix) (i : ℕ) (j c : ℤ) : Bool :=
  let below := i * width + width + (j - f0) + 1
  decide (1 < c ∨ (below < width * pattern.length ∧ 0 < (m.C below).getD 0))

/-- The loop of the last phase, with at most so many turns. `none` is a loop
that goes on, or one that compares a cell that is not filled. The positions
come out in the order of the text. -/
def backtrace (m : Matrix) (minIdx : ℕ) : ℕ → ℕ → ℤ → Bool → List ℤ → Option (List ℤ)
  | 0, _, _, _, _ => none
  | fuel + 1, i, j, preferMatch, positions => do
    let f ← st.F[i]?
    let s ← m.H (i * width + (j - f0))
    let s1 ← (if 0 < i ∧ f ≤ j then m.H (i * width - width + (j - f0) - 1) else some 0)
    let s2 ← (if f < j then m.H (i * width + (j - f0) - 1) else some 0)
    if IsMatch s s1 s2 preferMatch then
      let positions := (j + minIdx) :: positions
      if i = 0 then some positions
      else do
        let c ← m.C (i * width + (j - f0))
        backtrace m minIdx fuel (i - 1) (j - 1) (preferNext pattern f0 width m i j c) positions
    else do
      let c ← m.C (i * width + (j - f0))
      backtrace m minIdx fuel i (j - 1) (preferNext pattern f0 width m i j c) positions

end

/-! ### The match -/

/-- `FuzzyResult`; `stop` is its `end`. -/
structure FuzzyResult where
  start : ℤ
  stop : ℤ
  score : ℤ
  positions : Option (List ℤ)
  deriving DecidableEq

section

variable (u : Unicode)

/-- Phases two to four, on a window of the text. The outer `none` is that of
`backtrace`, the inner one is `null`. -/
def matchWindow (text pattern : JsString) (withPos caseSensitive : Bool) (fuel minIdx maxIdx : ℕ) :
    Option (Option FuzzyResult) :=
  let st := scanWindow u caseSensitive pattern text minIdx maxIdx
  if st.F.length ≠ pattern.length then some none
  else if pattern.length = 1 then
    let positions := if withPos then some [minIdx + st.maxScorePos] else none
    some (some ⟨minIdx + st.maxScorePos, minIdx + st.maxScorePos + 1, st.maxScore, positions⟩)
  else do
    let f0 ← st.F[0]?
    let width := st.lastIdx - f0 + 1
    let m ← fillMatrix pattern st f0 width
    let positions ← (if withPos then
        (backtrace pattern st f0 width m minIdx fuel (pattern.length - 1) m.maxScorePos true
          []).map some
      else some none)
    some (some ⟨minIdx + f0, minIdx + m.maxScorePos + 1, m.maxScore, positions⟩)

def fuzzyMatchV2 (text pattern : JsString) (withPos caseSensitive : Bool) (fuel : ℕ) :
    Option (Option FuzzyResult) :=
  if pattern.length = 0 then some (some ⟨0, 0, 0, none⟩)
  else if text.length < pattern.length then some none
  else
    match asciiFuzzyIndex text pattern with
    | none => some none
    | some (minIdx, maxIdx) => matchWindow u text pattern withPos caseSensitive fuel minIdx maxIdx

def fuzzyMatch (query target : JsString) (withPos caseSensitive : Bool) (fuel : ℕ) :
    Option (Option FuzzyResult) :=
  if query.length = 0 then some (some ⟨0, 0, 0, none⟩)
  else if target.length = 0 then some none
  else
    let pattern := if caseSensitive then query else u.toLowerCase query
    fuzzyMatchV2 u target pattern withPos caseSensitive fuel

end

/-! ### Lower case -/

section

variable (u : Unicode)

theorem toLowerCase_single (c : ℕ) : LowersTo c (u.toLowerCase [c]) := by
  obtain ⟨pieces, hpieces, hlower⟩ := u.lowers [c]
  cases hpieces with
  | cons hpiece hrest =>
    cases hrest
    rwa [hlower, List.flatten_cons, List.flatten_nil, List.append_nil]

theorem toLowerCase_ascii {c : ℕ} (h : c < 128) : u.toLowerCase [c] = [asciiLower c] := by
  have := toLowerCase_single u c
  rwa [LowersTo, if_pos h] at this

/-- Outside ASCII no character is of the class `Upper`: it would have to be a
capital of `A` to `Z` itself. -/
theorem charClassOf_eq_upper (c : ℕ) : charClassOf u c = .upper ↔ isUpper c = true := by
  unfold charClassOf
  by_cases hc : c < 128
  · rw [if_pos hc, asciiCharClass]
    by_cases hupper : isUpper c = true
    · have hlower : ¬ isLower c = true := by
        simp only [isUpper, isLower, decide_eq_true_eq] at hupper ⊢
        omega
      simp [hupper, hlower]
    · simp only [hupper]
      split_ifs <;> simp_all
  · have hupper : ¬ isUpper c = true := by
      simp only [isUpper, decide_eq_true_eq]
      omega
    rw [if_neg hc, charClassOfNonAscii]
    refine iff_of_false ?_ hupper
    have hcapital : ¬ ((u.toUpperCase [c]).any isUpper = true ∧ [c] = u.toUpperCase [c]) := by
      rintro ⟨hany, hself⟩
      rw [← hself, List.any_cons, List.any_nil, Bool.or_false] at hany
      exact hupper hany
    rw [if_neg hcapital]
    split_ifs <;> simp

/-- A character of the target as the search compares it. -/
def fold (caseSensitive : Bool) (c : ℕ) : ℕ := if caseSensitive then c else asciiLower c

/-- A character of the pattern takes that of the target. -/
abbrev Takes (caseSensitive : Bool) (q c : ℕ) : Prop := fold caseSensitive c = q

theorem readChar_eq (caseSensitive : Bool) (c : ℕ) :
    readChar u caseSensitive c = [fold caseSensitive c] := by
  unfold readChar fold
  cases caseSensitive with
  | true => rfl
  | false =>
    by_cases hupper : isUpper c = true
    · have hascii : c < 128 := by
        simp only [isUpper, decide_eq_true_eq] at hupper
        omega
      rw [if_pos ⟨rfl, (charClassOf_eq_upper u c).mpr hupper⟩, toLowerCase_ascii u hascii]
      rfl
    · rw [if_neg fun h => hupper ((charClassOf_eq_upper u c).mp h.2)]
      simp [asciiLower, hupper]

theorem isChar_readChar {caseSensitive : Bool} {pattern : JsString} {k c : ℕ} :
    IsChar pattern k (readChar u caseSensitive c) ↔ pattern[k]? = some (fold caseSensitive c) := by
  rw [IsChar, readChar_eq]
  cases pattern[k]? <;> simp

end

/-! ### What the scan notes -/

theorem getElem?_snoc {α : Type} {l : List α} {x y : α} {k : ℕ} :
    (l ++ [x])[k]? = some y ↔ l[k]? = some y ∨ k = l.length ∧ x = y := by
  rcases Nat.lt_trichotomy k l.length with h | rfl | h
  · rw [List.getElem?_append_left h]
    exact ⟨.inl, fun hor => hor.resolve_right fun hk => by omega⟩
  · simp
  · rw [List.getElem?_eq_none (by simp; omega), List.getElem?_eq_none (by omega)]
    exact iff_of_false (by simp) (by simp; omega)

theorem item_natCast {α : Type} (a : List α) (k : ℕ) : item a (k : ℤ) = a[k]? := by
  simp [item]

/-- The scan has read these characters. -/
structure Scanned (u : Unicode) (caseSensitive : Bool) (pattern done : JsString) (st : Scan) :
    Prop where
  T : st.T = done.map (readChar u caseSensitive)
  lengthB : st.B.length = done.length
  bonus : ∀ b ∈ st.B, 0 ≤ b
  lengthH0 : st.H0.length = done.length
  nonneg : ∀ h ∈ st.H0, 0 ≤ h
  lengthC0 : st.C0.length = done.length
  isRun : ∀ c ∈ st.C0, 0 ≤ c ∧ c ≤ 1
  left : pattern.drop st.F.length = leftOver (Takes caseSensitive) pattern done
  found_le : st.F.length ≤ pattern.length
  found : ∀ (i : ℕ) f, st.F[i]? = some f →
    0 ≤ f ∧ f < done.length ∧ ∃ char, item st.T f = some char ∧ IsChar pattern i char
  increasing : st.F.Pairwise (· < ·)
  last : ∀ f ∈ st.F, f ≤ st.lastIdx ∧ st.lastIdx < done.length
  hit : ∀ (k : ℕ) h char, st.H0[k]? = some h → st.T[k]? = some char → IsChar pattern 0 char → 0 < h
  gap : ∀ (k : ℕ) l h char, st.H0[k]? = some l → st.H0[k + 1]? = some h →
    st.T[k + 1]? = some char → ¬ IsChar pattern 0 char → h = 0 ∨ h < l
  prev : st.H0.getLast? = some st.prevH0 ∨ st.H0 = [] ∧ st.prevH0 = 0
  many : pattern.length ≠ 1 → st.maxScore = 0
  none : st.F = [] → st.maxScore = 0
  single : pattern.length = 1 → st.F ≠ [] →
    0 < st.maxScore ∧ ∃ char, item st.T st.maxScorePos = some char ∧ IsChar pattern 0 char

section

variable {u : Unicode} {caseSensitive : Bool} {pattern done : JsString} {st : Scan}

theorem scanned_initial (prevClass : CharClass) :
    Scanned u caseSensitive pattern [] (.initial prevClass) where
  T := rfl
  lengthB := rfl
  bonus := by simp [Scan.initial]
  lengthH0 := rfl
  nonneg := by simp [Scan.initial]
  lengthC0 := rfl
  isRun := by simp [Scan.initial]
  left := by simp [Scan.initial]
  found_le := Nat.zero_le _
  found := by simp [Scan.initial]
  increasing := .nil
  last := by simp [Scan.initial]
  hit := by simp [Scan.initial]
  gap := by simp [Scan.initial]
  prev := .inr ⟨rfl, rfl⟩
  many _ := rfl
  none _ := rfl
  single _ h := absurd rfl h

theorem Scanned.lengthT (hs : Scanned u caseSensitive pattern done st) :
    st.T.length = done.length := by
  rw [hs.T, List.length_map]

/-- Where all characters are found the search is over. -/
theorem Scanned.left_eq_nil (hs : Scanned u caseSensitive pattern done st) :
    leftOver (Takes caseSensitive) pattern done = [] ↔
      st.F.length = pattern.length := by
  rw [← hs.left, List.drop_eq_nil_iff]
  exact ⟨fun h => le_antisymm hs.found_le h, fun h => h.ge⟩

section

variable {unit : ℕ}

/-- The character is the next one of the pattern. -/
theorem step_found (hlt : st.F.length < pattern.length)
    (hnext : pattern[st.F.length]? = some (fold caseSensitive unit)) :
    (st.step u caseSensitive pattern unit).F = st.F ++ [(st.T.length : ℤ)] ∧
      (st.step u caseSensitive pattern unit).lastIdx = st.T.length := by
  have hmin : min st.F.length (pattern.length - 1) = st.F.length := by omega
  have hchar : IsChar pattern (min st.F.length (pattern.length - 1))
      (readChar u caseSensitive unit) := by
    rwa [hmin, isChar_readChar]
  exact ⟨if_pos ⟨hchar, hlt⟩, if_pos hchar⟩

/-- It is not. -/
theorem step_notFound (hlt : st.F.length < pattern.length)
    (hnext : pattern[st.F.length]? ≠ some (fold caseSensitive unit)) :
    (st.step u caseSensitive pattern unit).F = st.F ∧
      (st.step u caseSensitive pattern unit).lastIdx = st.lastIdx := by
  have hmin : min st.F.length (pattern.length - 1) = st.F.length := by omega
  have hchar : ¬ IsChar pattern (min st.F.length (pattern.length - 1))
      (readChar u caseSensitive unit) := by
    rwa [hmin, isChar_readChar]
  exact ⟨if_neg fun h => hchar h.1, if_neg hchar⟩

/-- All characters were found before: only the last place may move. -/
theorem step_complete (u : Unicode) (caseSensitive : Bool) (unit : ℕ)
    (hge : pattern.length ≤ st.F.length) :
    (st.step u caseSensitive pattern unit).F = st.F ∧
      ((st.step u caseSensitive pattern unit).lastIdx = st.T.length ∨
        (st.step u caseSensitive pattern unit).lastIdx = st.lastIdx) := by
  refine ⟨if_neg fun h => by omega, ?_⟩
  show (if _ then _ else _) = _ ∨ (if _ then _ else _) = _
  split_ifs
  · exact .inl rfl
  · exact .inr rfl

/-- What the step does to the places that are noted. -/
theorem step_places (u : Unicode) (caseSensitive : Bool) (pattern : JsString) (st : Scan)
    (unit : ℕ) :
    (st.F.length < pattern.length ∧ pattern[st.F.length]? = some (fold caseSensitive unit) ∧
        (st.step u caseSensitive pattern unit).F = st.F ++ [(st.T.length : ℤ)] ∧
        (st.step u caseSensitive pattern unit).lastIdx = st.T.length) ∨
      ((st.F.length < pattern.length → pattern[st.F.length]? ≠ some (fold caseSensitive unit)) ∧
        (st.step u caseSensitive pattern unit).F = st.F ∧
        ((st.step u caseSensitive pattern unit).lastIdx = st.T.length ∨
          (st.step u caseSensitive pattern unit).lastIdx = st.lastIdx)) := by
  rcases Nat.lt_or_ge st.F.length pattern.length with hlt | hge
  · by_cases hnext : pattern[st.F.length]? = some (fold caseSensitive unit)
    · exact .inl ⟨hlt, hnext, step_found hlt hnext⟩
    · have := step_notFound (u := u) hlt hnext
      exact .inr ⟨fun _ => hnext, this.1, .inr this.2⟩
  · have := step_complete u caseSensitive unit hge
    exact .inr ⟨fun h => by omega, this⟩

end

theorem firstScore_pos (st : Scan) (unit : ℕ) : 0 < st.firstScore u unit := by
  have := bonusFor_nonneg st.prevClass (charClassOf u unit)
  rw [Scan.firstScore, scoreMatch, bonusFirstCharMultiplier]
  omega

/-- What a character of the pattern scores is positive, a gap costs. -/
theorem nextH0_cases (u : Unicode) (caseSensitive : Bool) (pattern : JsString) (st : Scan)
    (unit : ℕ) :
    0 ≤ st.nextH0 u caseSensitive pattern unit ∧
      (IsChar pattern 0 (readChar u caseSensitive unit) →
        0 < st.nextH0 u caseSensitive pattern unit) ∧
      (¬ IsChar pattern 0 (readChar u caseSensitive unit) →
        st.nextH0 u caseSensitive pattern unit = 0 ∨
          st.nextH0 u caseSensitive pattern unit < st.prevH0) := by
  have hscore := firstScore_pos (u := u) st unit
  unfold Scan.nextH0
  by_cases hchar : IsChar pattern 0 (readChar u caseSensitive unit)
  · rw [if_pos hchar]
    exact ⟨hscore.le, fun _ => hscore, fun h => absurd hchar h⟩
  · rw [if_neg hchar, scoreGapExtension, scoreGapStart]
    refine ⟨le_max_right _ _, fun h => absurd h hchar, fun _ => ?_⟩
    split_ifs <;> omega

/-- The best place of a pattern of one character. -/
theorem step_best (hs : Scanned u caseSensitive pattern done st) (unit : ℕ) :
    (pattern.length ≠ 1 → (st.step u caseSensitive pattern unit).maxScore = 0) ∧
      (¬ IsChar pattern 0 (readChar u caseSensitive unit) →
        (st.step u caseSensitive pattern unit).maxScore = st.maxScore ∧
          (st.step u caseSensitive pattern unit).maxScorePos = st.maxScorePos) ∧
      (pattern.length = 1 → IsChar pattern 0 (readChar u caseSensitive unit) →
        st.maxScore < st.firstScore u unit ∧
            (st.step u caseSensitive pattern unit).maxScore = st.firstScore u unit ∧
            (st.step u caseSensitive pattern unit).maxScorePos = st.T.length ∨
          st.firstScore u unit ≤ st.maxScore ∧
            (st.step u caseSensitive pattern unit).maxScore = st.maxScore ∧
            (st.step u caseSensitive pattern unit).maxScorePos = st.maxScorePos) := by
  refine ⟨fun hmany => ?_, fun hchar => ?_, fun hone hchar => ?_⟩
  · show (if _ then _ else _) = _
    rw [if_neg fun h => hmany h.2.1]
    exact hs.many hmany
  · exact ⟨if_neg fun h => hchar h.1, if_neg fun h => hchar h.1⟩
  · rcases lt_or_ge st.maxScore (st.firstScore u unit) with hlt | hge
    · exact .inl ⟨hlt, if_pos ⟨hchar, hone, hlt⟩, if_pos ⟨hchar, hone, hlt⟩⟩
    · exact .inr ⟨hge, if_neg fun h => h.2.2.not_ge hge, if_neg fun h => h.2.2.not_ge hge⟩

theorem item_snoc_left {α : Type} {l : List α} {x y : α} {k : ℤ} (h : item l k = some x) :
    item (l ++ [y]) k = some x := by
  unfold item at h ⊢
  split_ifs at h ⊢
  exact getElem?_snoc.mpr (.inl h)

theorem item_snoc_length {α : Type} (l : List α) (y : α) : item (l ++ [y]) l.length = some y := by
  rw [item_natCast]
  exact getElem?_snoc.mpr (.inr ⟨rfl, rfl⟩)

/-- The row of the first character, with one place more. -/
theorem Scanned.gap_step (hs : Scanned u caseSensitive pattern done st) (unit k : ℕ)
    (l h : ℤ) (char : JsString)
    (hl : (st.H0 ++ [st.nextH0 u caseSensitive pattern unit])[k]? = some l)
    (hh : (st.H0 ++ [st.nextH0 u caseSensitive pattern unit])[k + 1]? = some h)
    (hchar : (st.T ++ [readChar u caseSensitive unit])[k + 1]? = some char)
    (hno : ¬ IsChar pattern 0 char) : h = 0 ∨ h < l := by
  have hT := hs.lengthT
  have hH0 := hs.lengthH0
  rcases getElem?_snoc.mp hh with hh' | ⟨hk, rfl⟩
  · have hlt := (List.getElem?_eq_some_iff.mp hh').1
    have hl' : st.H0[k]? = some l := (getElem?_snoc.mp hl).resolve_right fun h => by omega
    have hchar' : st.T[k + 1]? = some char :=
      (getElem?_snoc.mp hchar).resolve_right fun h => by omega
    exact hs.gap k l h char hl' hh' hchar' hno
  · have hl' : st.H0[k]? = some l := (getElem?_snoc.mp hl).resolve_right fun h => by omega
    have hlast : st.H0.getLast? = some l := by
      rw [List.getLast?_eq_getElem?, ← hl']
      congr 1
      omega
    obtain rfl : st.prevH0 = l := by
      rcases hs.prev with h | ⟨h, _⟩
      · exact Option.some.inj (h.symm.trans hlast)
      · rw [h] at hlast
        cases hlast
    rcases getElem?_snoc.mp hchar with h | ⟨_, rfl⟩
    · have := (List.getElem?_eq_some_iff.mp h).1
      omega
    · exact (nextH0_cases u caseSensitive pattern st unit).2.2 hno

/-- The places of the characters, with the next one. -/
theorem Scanned.places_step (hs : Scanned u caseSensitive pattern done st) (unit : ℕ) :
    let st' := st.step u caseSensitive pattern unit
    pattern.drop st'.F.length =
        leftOver (Takes caseSensitive) pattern (done ++ [unit]) ∧
      st'.F.length ≤ pattern.length ∧
      (∀ (i : ℕ) f, st'.F[i]? = some f → 0 ≤ f ∧ f < (done ++ [unit]).length ∧
        ∃ char, item st'.T f = some char ∧ IsChar pattern i char) ∧
      st'.F.Pairwise (· < ·) ∧
      ∀ f ∈ st'.F, f ≤ st'.lastIdx ∧ st'.lastIdx < (done ++ [unit]).length := by
  intro st'
  have hT := hs.lengthT
  have hlength : ((done ++ [unit]).length : ℤ) = done.length + 1 := by simp
  have hfound : ∀ (i : ℕ) f, st.F[i]? = some f → 0 ≤ f ∧ f < (done ++ [unit]).length ∧
      ∃ char, item st'.T f = some char ∧ IsChar pattern i char := by
    intro i f hf
    obtain ⟨h0, hlt, char, hitem, hchar⟩ := hs.found i f hf
    exact ⟨h0, by omega, char, item_snoc_left hitem, hchar⟩
  rw [leftOver_append, ← hs.left]
  rcases step_places u caseSensitive pattern st unit with
    ⟨hlt, hnext, hF, hlast⟩ | ⟨hnext, hF, hlast⟩
  · obtain ⟨_, hget⟩ := List.getElem?_eq_some_iff.mp hnext
    rw [hF, hlast, List.length_append, List.length_singleton]
    refine ⟨?_, hlt, fun i f hf => ?_, ?_, fun f hf => ?_⟩
    · have htakes : Takes caseSensitive pattern[st.F.length] unit := hget.symm
      rw [List.drop_eq_getElem_cons hlt, leftOver_take htakes, leftOver_empty]
    · rcases getElem?_snoc.mp hf with hf | ⟨rfl, rfl⟩
      · exact hfound i f hf
      · refine ⟨by omega, by omega, _, item_snoc_length st.T _, ?_⟩
        rwa [isChar_readChar]
    · refine List.pairwise_append.mpr ⟨hs.increasing, List.pairwise_singleton _ _, fun f hf g hg => ?_⟩
      rw [List.mem_singleton.mp hg]
      have := hs.last f hf
      omega
    · rcases List.mem_append.mp hf with hf | hf
      · have := hs.last f hf
        omega
      · rw [List.mem_singleton.mp hf]
        omega
  · rw [hF]
    refine ⟨?_, hs.found_le, hfound, hs.increasing, fun f hf => ?_⟩
    · rcases Nat.lt_or_ge st.F.length pattern.length with hlt | hge
      · rw [List.drop_eq_getElem_cons hlt, leftOver_skip]
        intro c hc heq
        rw [List.mem_singleton.mp hc] at heq
        exact hnext hlt (by rw [List.getElem?_eq_getElem hlt, heq])
      · rw [List.drop_eq_nil_of_le hge, leftOver_nil]
    · have := hs.last f hf
      rcases hlast with h | h <;> rw [h] <;> omega

/-- **One turn of the loop.** -/
theorem Scanned.step (hs : Scanned u caseSensitive pattern done st) (unit : ℕ) :
    Scanned u caseSensitive pattern (done ++ [unit]) (st.step u caseSensitive pattern unit) := by
  obtain ⟨hnonneg, hpos, _⟩ := nextH0_cases u caseSensitive pattern st unit
  obtain ⟨hmany, hsame, hbest⟩ := step_best hs unit
  obtain ⟨hleft, hfound_le, hfound, hincreasing, hlast⟩ := hs.places_step unit
  have hlengthT := hs.lengthT
  have hlengthH0 := hs.lengthH0
  refine
    { T := ?_, lengthB := ?_, bonus := ?_, lengthH0 := ?_, nonneg := ?_, lengthC0 := ?_, isRun := ?_
      left := hleft, found_le := hfound_le, found := hfound, increasing := hincreasing
      last := hlast, hit := ?_, gap := hs.gap_step unit, prev := ?_, many := hmany, none := ?_
      single := ?_ }
  · show st.T ++ [_] = _
    rw [hs.T, List.map_append, List.map_singleton]
  · show (st.B ++ [_]).length = _
    rw [List.length_append, hs.lengthB, List.length_append]
    rfl
  · intro b hb
    rcases List.mem_append.mp hb with h | h
    · exact hs.bonus b h
    · rw [List.mem_singleton.mp h]
      exact bonusFor_nonneg _ _
  · show (st.H0 ++ [_]).length = _
    rw [List.length_append, hs.lengthH0, List.length_append]
    rfl
  · intro h hh
    rcases List.mem_append.mp hh with hmem | hmem
    · exact hs.nonneg h hmem
    · rw [List.mem_singleton.mp hmem]
      exact hnonneg
  · show (st.C0 ++ [_]).length = _
    rw [List.length_append, hs.lengthC0, List.length_append]
    rfl
  · intro c hc
    rcases List.mem_append.mp hc with h | h
    · exact hs.isRun c h
    · rw [List.mem_singleton.mp h]
      split_ifs <;> decide
  · intro k h char hh hchar
    rcases getElem?_snoc.mp hh with hh' | ⟨hk, rfl⟩
    · have hlt := (List.getElem?_eq_some_iff.mp hh').1
      exact hs.hit k h char hh' ((getElem?_snoc.mp hchar).resolve_right fun hor => by omega)
    · rcases getElem?_snoc.mp hchar with h | ⟨_, rfl⟩
      · have := (List.getElem?_eq_some_iff.mp h).1
        omega
      · exact hpos
  · exact .inl (List.getLast?_concat ..)
  · intro hnil
    rcases step_places u caseSensitive pattern st unit with
      ⟨_, _, hF, _⟩ | ⟨hnext, hF, _⟩
    · rw [hF] at hnil
      exact absurd hnil (by simp)
    · rw [hF] at hnil
      have hno : ¬ IsChar pattern 0 (readChar u caseSensitive unit) := by
        rw [isChar_readChar]
        intro hchar
        rw [hnil] at hnext
        exact hnext (List.getElem?_eq_some_iff.mp hchar).1 hchar
      rw [(hsame hno).1, hs.none hnil]
  · intro hone hF'
    by_cases hchar : IsChar pattern 0 (readChar u caseSensitive unit)
    · have hscore := firstScore_pos (u := u) st unit
      rcases hbest hone hchar with ⟨_, hmax, hat⟩ | ⟨hle, hmax, hat⟩ <;> rw [hmax, hat]
      · exact ⟨hscore, _, item_snoc_length st.T _, hchar⟩
      · have hF : st.F ≠ [] := fun hnil => by
          have := hs.none hnil
          omega
        obtain ⟨hmax, char, hitem, hchar⟩ := hs.single hone hF
        exact ⟨hmax, char, item_snoc_left hitem, hchar⟩
    · have hF : st.F ≠ [] := by
        rcases step_places u caseSensitive pattern st unit with
          ⟨hlt, hnext, _⟩ | ⟨_, hF, _⟩
        · rw [show st.F.length = 0 by omega] at hnext
          exact absurd (isChar_readChar (u := u) |>.mpr hnext) hchar
        · rwa [← hF]
      obtain ⟨hmax, char, hitem, hchar'⟩ := hs.single hone hF
      rw [(hsame hchar).1, (hsame hchar).2]
      exact ⟨hmax, char, item_snoc_left hitem, hchar'⟩

/-- **The whole loop.** It reads the window, or stops early with the only
character of the pattern found. -/
theorem Scanned.run : ∀ (units : JsString) {done : JsString} {st : Scan},
    Scanned u caseSensitive pattern done st →
    ∃ more rest, units = more ++ rest ∧
      Scanned u caseSensitive pattern (done ++ more) (st.run u caseSensitive pattern units) ∧
      (rest ≠ [] → (st.run u caseSensitive pattern units).F.length = pattern.length)
  | [], done, st, hs => ⟨[], [], rfl, by rwa [List.append_nil], fun h => absurd rfl h⟩
  | unit :: units, done, st, hs => by
    rw [Scan.run]
    by_cases hstops : st.stops u caseSensitive pattern unit
    · rw [if_pos hstops]
      obtain ⟨hchar, hone, hbetter, _⟩ := hstops
      have hstep := hs.step unit
      refine ⟨[unit], units, rfl, hstep, fun _ => ?_⟩
      have hmax : (st.step u caseSensitive pattern unit).maxScore = st.firstScore u unit :=
        if_pos ⟨hchar, hone, hbetter⟩
      have hne : (st.step u caseSensitive pattern unit).F ≠ [] := fun hnil => by
        have := hstep.none hnil
        have := firstScore_pos (u := u) st unit
        omega
      have := List.length_pos_iff.mpr hne
      have := hstep.found_le
      omega
    · rw [if_neg hstops]
      obtain ⟨more, rest, rfl, hrun, hrest⟩ := Scanned.run units (hs.step unit)
      refine ⟨unit :: more, rest, rfl, ?_, hrest⟩
      rwa [List.append_assoc] at hrun

/-- What the scan of a window leaves. -/
theorem scanned_scanWindow (u : Unicode) (caseSensitive : Bool) (pattern text : JsString)
    (minIdx maxIdx : ℕ) :
    ∃ done rest, substring text minIdx maxIdx = done ++ rest ∧
      Scanned u caseSensitive pattern done
        (scanWindow u caseSensitive pattern text minIdx maxIdx) ∧
      (rest ≠ [] →
        (scanWindow u caseSensitive pattern text minIdx maxIdx).F.length = pattern.length) :=
  Scanned.run (substring text minIdx maxIdx) (scanned_initial (classBefore u text minIdx))

end

end Fuzzy
end Gitdot
