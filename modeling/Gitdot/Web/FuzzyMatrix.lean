/-
# Fuzzy search: the matrix and the way back

Row `i` of the matrix is filled from the first place of the character `i` to
the last place of the last one. What is filled obeys two rules: a match
scores more than the cell it comes from, and a cell without a match scores
nothing or less than the one before it (`GoodCell`).

By these rules the way back takes a step up only at a match, always takes one
at the first place of a row, and so ends with one place for each character
(`backtrace_spec`), at most as many turns after its start as there are
columns.

Key definitions: `Ready`, `cellAt`, `GoodCell`, `FilledRows`, `wayThrough`.
Key theorems: `matchScore_spec`, `fillCell_computed`, `fillMatrix_spec`,
`backtrace_spec`, `backtrace_completed`, `matchWindow_spec`.
-/
import Gitdot.Web.Fuzzy
import Mathlib.Data.List.Forall2
import Mathlib.Tactic.Linarith
import Mathlib.Tactic.Ring

namespace Gitdot
namespace Fuzzy

open Lib

/-! ### What the scan hands over -/

/-- What the third phase relies on. -/
structure Ready (pattern : JsString) (st : Scan) (f0 width : ℤ) : Prop where
  many : 2 ≤ pattern.length
  width_eq : width = st.lastIdx - f0 + 1
  first : st.F[0]? = some f0
  rows : ∀ i < pattern.length, ∃ f q, st.F[i]? = some f ∧ pattern[i]? = some q ∧ f0 ≤ f ∧
    f ≤ st.lastIdx ∧ item st.T f = some [q]
  next : ∀ (i : ℕ) f g, st.F[i]? = some f → st.F[i + 1]? = some g → f < g
  cells : ∀ j, f0 ≤ j → j ≤ st.lastIdx → ∃ char b h c,
    item st.T j = some char ∧ item st.B j = some b ∧ 0 ≤ b ∧
      item st.H0 j = some h ∧ 0 ≤ h ∧ item st.C0 j = some c ∧ 0 ≤ c ∧ c ≤ 1 ∧
      (IsChar pattern 0 char → 0 < h) ∧
      (¬ IsChar pattern 0 char → f0 < j → ∃ l, item st.H0 (j - 1) = some l ∧ (h = 0 ∨ h < l))
  unscored : st.maxScore = 0

theorem Ready.width_pos {pattern : JsString} {st : Scan} {f0 width : ℤ}
    (hr : Ready pattern st f0 width) : 0 < width := by
  have := hr.many
  obtain ⟨f, _, _, _, hle, hlast, _⟩ := hr.rows 0 (by omega)
  have := hr.width_eq
  omega

theorem item_of_lt {α : Type} (a : List α) {k : ℤ} (h0 : 0 ≤ k) (hlt : k < a.length) :
    ∃ (n : ℕ) (h : n < a.length), k = n ∧ item a k = some a[n] := by
  obtain ⟨n, rfl⟩ := Int.eq_ofNat_of_zero_le h0
  have hn : n < a.length := by omega
  exact ⟨n, hn, rfl, by rw [item_natCast, List.getElem?_eq_getElem hn]⟩

theorem Scanned.ready {u : Unicode} {caseSensitive : Bool} {pattern done : JsString} {st : Scan}
    (hs : Scanned u caseSensitive pattern done st) (hF : st.F.length = pattern.length)
    (hmany : 2 ≤ pattern.length) {f0 : ℤ} (hfirst : st.F[0]? = some f0) :
    Ready pattern st f0 (st.lastIdx - f0 + 1) where
  many := hmany
  width_eq := rfl
  first := hfirst
  rows i hi := by
    have hi' : i < st.F.length := by omega
    have hf : st.F[i]? = some st.F[i] := List.getElem?_eq_getElem hi'
    obtain ⟨_, hlt, char, hitem, hchar⟩ := hs.found i _ hf
    refine ⟨_, pattern[i], hf, List.getElem?_eq_getElem hi, ?_, (hs.last _ (List.getElem_mem hi')).1, ?_⟩
    · rcases Nat.eq_zero_or_pos i with rfl | hpos
      · exact (Option.some.inj (hfirst.symm.trans hf)).le
      · obtain ⟨h0, hget⟩ := List.getElem?_eq_some_iff.mp hfirst
        rw [← hget]
        exact (List.pairwise_iff_getElem.mp hs.increasing 0 i h0 hi' hpos).le
    · rw [hitem]
      rw [IsChar, List.getElem?_eq_getElem hi] at hchar
      exact hchar.symm
  next i f g hf hg := by
    obtain ⟨hi, rfl⟩ := List.getElem?_eq_some_iff.mp hf
    obtain ⟨hi', rfl⟩ := List.getElem?_eq_some_iff.mp hg
    exact List.pairwise_iff_getElem.mp hs.increasing i (i + 1) hi hi' (Nat.lt_succ_self i)
  cells j hj hj' := by
    have hmem : f0 ∈ st.F := List.mem_of_getElem? hfirst
    have h0 := (hs.found 0 f0 hfirst).1
    have hlast := hs.last f0 hmem
    have hT := hs.lengthT
    have hB := hs.lengthB
    have hH0 := hs.lengthH0
    have hC0 := hs.lengthC0
    obtain ⟨n, hn, rfl, hchar⟩ := item_of_lt st.T (k := j) (by omega) (by omega)
    have hb : item st.B (n : ℤ) = some st.B[n] := by
      rw [item_natCast, List.getElem?_eq_getElem]
    have hh : st.H0[n]? = some st.H0[n] := List.getElem?_eq_getElem _
    have hc : item st.C0 (n : ℤ) = some st.C0[n] := by
      rw [item_natCast, List.getElem?_eq_getElem]
    rw [item_natCast] at hchar
    refine ⟨_, _, _, _, by rw [item_natCast, hchar], hb, hs.bonus _ (List.getElem_mem _),
      by rw [item_natCast, hh], hs.nonneg _ (List.getElem_mem _), hc,
      (hs.isRun _ (List.getElem_mem _)).1, (hs.isRun _ (List.getElem_mem _)).2,
      hs.hit n _ _ hh hchar, fun hno hlt => ?_⟩
    obtain ⟨k, rfl⟩ : ∃ k, n = k + 1 := ⟨n - 1, by omega⟩
    have hk : k < st.H0.length := by omega
    have hl : st.H0[k]? = some st.H0[k] := List.getElem?_eq_getElem hk
    refine ⟨_, ?_, hs.gap k _ _ _ hl hh hchar hno⟩
    rw [show ((k + 1 : ℕ) : ℤ) - 1 = (k : ℤ) by omega, item_natCast, hl]
  unscored := hs.many (by omega)

/-! ### The rules of the matrix -/

section

variable {pattern : JsString} {st : Scan} {f0 width : ℤ} {m m' : Matrix} {i : ℕ} {j h c : ℤ}

/-- The place of a cell in the arrays. -/
def cellAt (f0 width : ℤ) (i : ℕ) (j : ℤ) : ℤ := i * width + (j - f0)

/-- The character of the target is that of the pattern. -/
def Hit (pattern : JsString) (st : Scan) (i : ℕ) (j : ℤ) : Prop :=
  ∃ char, item st.T j = some char ∧ IsChar pattern i char

/-- What a match at a cell comes from. -/
def diagonal (f0 width : ℤ) (m : Matrix) : ℕ → ℤ → Option ℤ
  | 0, _ => some 0
  | i + 1, j => m.H (cellAt f0 width i (j - 1))

/-- A cell that is filled, with its score and its run of consecutive matches. -/
structure GoodCell (pattern : JsString) (st : Scan) (f0 width : ℤ) (m : Matrix) (i : ℕ)
    (j h c : ℤ) : Prop where
  score : m.H (cellAt f0 width i j) = some h
  run : m.C (cellAt f0 width i j) = some c
  nonneg : 0 ≤ h
  run_nonneg : 0 ≤ c
  run_le : c ≤ j - f0 + 1
  hit : Hit pattern st i j → ∃ d, diagonal f0 width m i j = some d ∧ 0 ≤ d ∧ d < h
  gap : ¬ Hit pattern st i j → ∃ l, m.H (cellAt f0 width i (j - 1)) = some l ∧ (h = 0 ∨ h < l)

/-- The row is filled from its first place up to this one. -/
def FilledTo (pattern : JsString) (st : Scan) (f0 width : ℤ) (m : Matrix) (i : ℕ) (stop : ℤ) : Prop :=
  ∀ f, st.F[i]? = some f → ∀ j, f ≤ j → j < stop → ∃ h c, GoodCell pattern st f0 width m i j h c

/-- The first place of a row. -/
theorem Ready.row (hr : Ready pattern st f0 width) (hi : i < pattern.length) {f : ℤ}
    (hf : st.F[i]? = some f) : Hit pattern st i f ∧ f0 ≤ f ∧ f ≤ st.lastIdx := by
  obtain ⟨g, q, hg, hq, h0, hlast, hitem⟩ := hr.rows i hi
  obtain rfl : f = g := Option.some.inj (hf.symm.trans hg)
  exact ⟨⟨[q], hitem, by rw [IsChar, hq]; rfl⟩, h0, hlast⟩

theorem cellAt_pred (i : ℕ) (j : ℤ) :
    (i : ℤ) * width + (j - f0) - 1 = cellAt f0 width i (j - 1) := by
  unfold cellAt
  ring

theorem cellAt_diagonal (i : ℕ) (j : ℤ) :
    ((i + 1 : ℕ) : ℤ) * width - width + (j - f0) - 1 = cellAt f0 width i (j - 1) := by
  unfold cellAt
  push_cast
  ring

/-- The cells come row by row. -/
theorem cellAt_lt {i' : ℕ} {j' : ℤ} (hr : Ready pattern st f0 width) (hi : i' < i)
    (hj' : j' ≤ st.lastIdx) (hj : f0 ≤ j) : cellAt f0 width i' j' < cellAt f0 width i j := by
  obtain ⟨n, rfl⟩ : ∃ n, i = i' + 1 + n := ⟨i - i' - 1, by omega⟩
  have hwidth := hr.width_pos
  have hrest : 0 ≤ (n : ℤ) * width := mul_nonneg (Int.natCast_nonneg n) hwidth.le
  have heq := hr.width_eq
  unfold cellAt
  push_cast
  linarith

/-- What comes later changes nothing. -/
theorem GoodCell.mono (hr : Ready pattern st f0 width) (hj : f0 ≤ j) (hj' : j ≤ st.lastIdx + 1)
    (hc : GoodCell pattern st f0 width m i j h c)
    (hsame : ∀ k ≤ cellAt f0 width i j, m'.H k = m.H k ∧ m'.C k = m.C k) :
    GoodCell pattern st f0 width m' i j h c where
  score := by rw [(hsame _ le_rfl).1, hc.score]
  run := by rw [(hsame _ le_rfl).2, hc.run]
  nonneg := hc.nonneg
  run_nonneg := hc.run_nonneg
  run_le := hc.run_le
  hit hhit := by
    obtain ⟨d, hd, hlt⟩ := hc.hit hhit
    refine ⟨d, ?_, hlt⟩
    cases i with
    | zero => exact hd
    | succ i =>
      have hle := cellAt_lt hr (Nat.lt_succ_self i) (show j - 1 ≤ st.lastIdx by omega) hj
      exact ((hsame _ hle.le).1).trans hd
  gap hgap := by
    obtain ⟨l, hl, hor⟩ := hc.gap hgap
    refine ⟨l, ?_, hor⟩
    rw [(hsame _ (by unfold cellAt; omega)).1, hl]

/-! ### Filling it -/

/-- A match is worth more than what it comes from, and its run stays inside the
matrix. -/
theorem matchScore_spec (hr : Ready pattern st f0 width) (hj : f0 ≤ j) (hj' : j ≤ st.lastIdx)
    (d before s2 : ℤ) (hbefore : 0 ≤ before) (hle : before ≤ j - f0) :
    ∃ s1 c, matchScore st d before s2 j = some (s1, c) ∧ d < s1 ∧ 0 ≤ c ∧ c ≤ j - f0 + 1 := by
  obtain ⟨_, bonus, _, _, _, hbonus, hpos, _⟩ := hr.cells j hj hj'
  obtain ⟨_, fb, _, _, _, hfb, _⟩ := hr.cells (j - (before + 1) + 1) (by omega) (by omega)
  have hmax : bonus ≤ max (max bonus bonusConsecutive) fb :=
    (le_max_left _ _).trans (le_max_left _ _)
  have hmatch : 0 < scoreMatch := by decide
  unfold matchScore
  simp only [hbonus, hfb, Option.bind_eq_bind, Option.bind_some]
  by_cases hrun : 1 < before + 1
  · by_cases hbreak : bonusBoundary ≤ bonus ∧ fb < bonus
    · simp only [if_pos hrun, if_pos hbreak]
      split_ifs <;> refine ⟨_, _, rfl, ?_, ?_, ?_⟩ <;> omega
    · simp only [if_pos hrun, if_neg hbreak]
      split_ifs <;> refine ⟨_, _, rfl, ?_, ?_, ?_⟩ <;> omega
  · simp only [if_neg hrun]
    split_ifs <;> refine ⟨_, _, rfl, ?_, ?_, ?_⟩ <;> omega

/-- The best score of the last row so far: where it stands first. -/
structure BestTo (pattern : JsString) (f0 width : ℤ) (m : Matrix) (i : ℕ) (f stop : ℤ) : Prop where
  other : i + 1 ≠ pattern.length → m.maxScore = 0
  start : stop ≤ f → m.maxScore = 0
  best : i + 1 = pattern.length → f < stop → 0 < m.maxScore ∧ f ≤ m.maxScorePos ∧
    m.maxScorePos < stop ∧ m.H (cellAt f0 width i m.maxScorePos) = some m.maxScore
  le : i + 1 = pattern.length → ∀ j h, f ≤ j → j < stop →
    m.H (cellAt f0 width i j) = some h → h ≤ m.maxScore
  first : i + 1 = pattern.length → ∀ j h, f ≤ j → j < stop → j < m.maxScorePos →
    m.H (cellAt f0 width i j) = some h → h < m.maxScore

/-- The matrix while its row `i` is filled. -/
structure Filling (pattern : JsString) (st : Scan) (f0 width : ℤ) (m : Matrix) (i : ℕ)
    (f stop : ℤ) : Prop where
  above : ∀ i' < i, FilledTo pattern st f0 width m i' (st.lastIdx + 1)
  here : FilledTo pattern st f0 width m i stop
  best : BestTo pattern f0 width m i f stop

/-- What a turn computes for a cell. -/
structure Computed (pattern : JsString) (st : Scan) (f0 width : ℤ) (m : Matrix) (i : ℕ)
    (f j s1 s2 c : ℤ) : Prop where
  run_nonneg : 0 ≤ c
  run_le : c ≤ j - f0 + 1
  hit : Hit pattern st i j → ∃ d, diagonal f0 width m i j = some d ∧ 0 ≤ d ∧ d < s1
  miss : ¬ Hit pattern st i j → s1 = 0
  left : f < j → ∃ l, m.H (cellAt f0 width i (j - 1)) = some l ∧ 0 ≤ l ∧ s2 < l
  first : j = f → s2 = 0

theorem hit_iff {q : ℕ} {char : JsString} (hq : pattern[i]? = some q) (hchar : item st.T j = some char) :
    Hit pattern st i j ↔ [q] = char := by
  simp [Hit, IsChar, hq, hchar]

theorem fromLeft_spec {f : ℤ} (hf : st.F[i]? = some f)
    (hhere : FilledTo pattern st f0 width m i j) :
    ∃ s2, fromLeft f0 width i f m j = some s2 ∧
      (f < j → ∃ l, m.H (cellAt f0 width i (j - 1)) = some l ∧ 0 ≤ l ∧ s2 < l) ∧
      (j = f → s2 = 0) := by
  unfold fromLeft
  by_cases hlt : f < j
  · obtain ⟨l, _, hl⟩ := hhere f hf (j - 1) (by omega) (by omega)
    have hgap : (if m.inGap then scoreGapExtension else scoreGapStart) < 0 := by
      split_ifs <;> decide
    refine ⟨l + if m.inGap then scoreGapExtension else scoreGapStart, ?_,
      fun _ => ⟨l, hl.score, hl.nonneg, by omega⟩, fun h => by omega⟩
    rw [if_pos hlt, cellAt_pred, hl.score, Option.map_some]
  · exact ⟨0, if_neg hlt, fun h => absurd h hlt, fun _ => rfl⟩

theorem fromDiagonal_spec (hr : Ready pattern st f0 width) (hj : f0 < j) (hj' : j ≤ st.lastIdx)
    {d before : ℤ} (hd : GoodCell pattern st f0 width m i (j - 1) d before) (q : ℕ)
    (char : JsString) (s2 : ℤ) :
    ∃ s1 c, fromDiagonal st f0 width (i + 1) q char s2 m j = some (s1, c) ∧ 0 ≤ c ∧
      c ≤ j - f0 + 1 ∧ ([q] = char → d < s1) ∧ ([q] ≠ char → s1 = 0) := by
  have hbefore := hd.run_le
  unfold fromDiagonal
  by_cases hhit : [q] = char
  · obtain ⟨s1, c, hmatch, hlt, hc, hc'⟩ := matchScore_spec hr hj.le hj' d before s2
      hd.run_nonneg (by omega)
    refine ⟨s1, c, ?_, hc, hc', fun _ => hlt, fun h => absurd hhit h⟩
    rw [if_pos hhit, cellAt_diagonal, hd.score, hd.run]
    exact hmatch
  · exact ⟨0, 0, if_neg hhit, le_rfl, by omega, fun h => absurd h hhit, fun _ => rfl⟩

/-- **The turn reads filled cells only.** -/
theorem fillCell_computed (hr : Ready pattern st f0 width) (hi : i + 1 < pattern.length) {f : ℤ}
    (hf : st.F[i + 1]? = some f) {q : ℕ} (hq : pattern[i + 1]? = some q)
    (hm : Filling pattern st f0 width m (i + 1) f j) (hj : f ≤ j) (hj' : j ≤ st.lastIdx) :
    ∃ s1 s2 c, fillCell pattern st f0 width (i + 1) f q m j =
        some (m.write pattern f0 width (i + 1) j s1 s2 c) ∧
      Computed pattern st f0 width m (i + 1) f j s1 s2 c := by
  obtain ⟨g, _, hg, _, hfg, _⟩ := hr.rows i (by omega)
  have hgf := hr.next i g f hg hf
  obtain ⟨char, _, _, _, hchar, _⟩ := hr.cells j (by omega) hj'
  obtain ⟨d, before, hd⟩ := hm.above i (Nat.lt_succ_self i) g hg (j - 1) (by omega) (by omega)
  obtain ⟨s2, hs2, hlt2, hfirst⟩ := fromLeft_spec hf hm.here
  obtain ⟨s1, c, hs1, hc, hc', hhit, hmiss⟩ := fromDiagonal_spec hr (by omega) hj' hd q char s2
  refine ⟨s1, s2, c, ?_, hc, hc', fun h => ⟨d, hd.score, hd.nonneg, ?_⟩, fun h => ?_, hlt2, hfirst⟩
  · simp only [fillCell, hchar, hs2, hs1, Option.bind_eq_bind, Option.bind_some]
  · exact hhit ((hit_iff hq hchar).mp h)
  · exact hmiss fun heq => h ((hit_iff hq hchar).mpr heq)

section Write

variable {f s1 s2 : ℤ}

/-- A turn writes its cell only. -/
theorem write_below (pattern : JsString) (f0 width : ℤ) (m : Matrix) (i : ℕ) (j s1 s2 c : ℤ) :
    ∀ k < cellAt f0 width i j, (m.write pattern f0 width i j s1 s2 c).H k = m.H k ∧
      (m.write pattern f0 width i j s1 s2 c).C k = m.C k := fun _ hk =>
  ⟨Function.update_of_ne hk.ne _ _, Function.update_of_ne hk.ne _ _⟩

/-- The cell that a turn writes obeys the rules. -/
theorem goodCell_write (hr : Ready pattern st f0 width) (hf0 : f0 ≤ f)
    (hhit : Hit pattern st i f) (hj : f ≤ j) (hj' : j ≤ st.lastIdx)
    (hc : Computed pattern st f0 width m i f j s1 s2 c) :
    GoodCell pattern st f0 width (m.write pattern f0 width i j s1 s2 c) i j
      (max (max s1 s2) 0) c where
  score := Function.update_self ..
  run := Function.update_self ..
  nonneg := le_max_right _ _
  run_nonneg := hc.run_nonneg
  run_le := hc.run_le
  hit h := by
    obtain ⟨d, hd, h0, hlt⟩ := hc.hit h
    refine ⟨d, ?_, h0, by omega⟩
    cases i with
    | zero => exact hd
    | succ i =>
      have hbefore := cellAt_lt hr (Nat.lt_succ_self i) (show j - 1 ≤ st.lastIdx by omega)
        (hf0.trans hj)
      exact (write_below pattern f0 width m _ j s1 s2 c _ hbefore).1.trans hd
  gap h := by
    have hlt : f < j := lt_of_le_of_ne hj fun heq => h (heq ▸ hhit)
    obtain ⟨l, hl, h0, hless⟩ := hc.left hlt
    have hmiss := hc.miss h
    refine ⟨l, (write_below pattern f0 width m i j s1 s2 c _ ?_).1.trans hl, by omega⟩
    unfold cellAt
    omega

/-- The best score is kept up. -/
theorem bestTo_write (hj : f ≤ j) (hhit : Hit pattern st i f)
    (hc : Computed pattern st f0 width m i f j s1 s2 c) (hm : BestTo pattern f0 width m i f j) :
    BestTo pattern f0 width (m.write pattern f0 width i j s1 s2 c) i f (j + 1) := by
  have hbelow : ∀ j' < j, (m.write pattern f0 width i j s1 s2 c).H (cellAt f0 width i j') =
      m.H (cellAt f0 width i j') := fun j' hlt =>
    (write_below pattern f0 width m i j s1 s2 c _ (by unfold cellAt; omega)).1
  have hself : (m.write pattern f0 width i j s1 s2 c).H (cellAt f0 width i j) =
      some (max (max s1 s2) 0) := Function.update_self ..
  have hfirst : f = j → m.maxScore < max (max s1 s2) 0 := by
    rintro rfl
    obtain ⟨d, _, h0, hlt⟩ := hc.hit hhit
    have := hm.start le_rfl
    omega
  have hnonneg : i + 1 = pattern.length → 0 ≤ m.maxScore := fun hlast => by
    rcases hj.eq_or_lt with rfl | hlt
    · exact (hm.start le_rfl).ge
    · exact (hm.best hlast hlt).1.le
  have hold : ∀ j' h, f ≤ j' → j' < j + 1 → j' ≠ j →
      (m.write pattern f0 width i j s1 s2 c).H (cellAt f0 width i j') = some h →
      j' < j ∧ m.H (cellAt f0 width i j') = some h := fun j' h _ hlt hne hh => by
    have hlt' : j' < j := by omega
    exact ⟨hlt', (hbelow j' hlt').symm.trans hh⟩
  by_cases hbest : i + 1 = pattern.length ∧ m.maxScore < max (max s1 s2) 0
  · have hscore : (m.write pattern f0 width i j s1 s2 c).maxScore = max (max s1 s2) 0 := if_pos hbest
    have hpos : (m.write pattern f0 width i j s1 s2 c).maxScorePos = j := if_pos hbest
    have h0 := hnonneg hbest.1
    refine ⟨fun h => absurd hbest.1 h, fun h => by omega, fun _ _ => ?_, fun hlast j' h hfj hlt hh => ?_,
      fun hlast j' h hfj hlt hlt' hh => ?_⟩
    · rw [hscore, hpos]
      exact ⟨by omega, hj, by omega, hself⟩
    · rw [hscore]
      by_cases heq : j' = j
      · rw [heq, hself] at hh
        exact (Option.some.inj hh).ge
      · obtain ⟨hlt', hh'⟩ := hold j' h hfj hlt heq hh
        have := hm.le hlast j' h hfj hlt' hh'
        omega
    · rw [hpos] at hlt'
      rw [hscore]
      have := hm.le hlast j' h hfj hlt' ((hbelow j' hlt').symm.trans hh)
      omega
  · have hscore : (m.write pattern f0 width i j s1 s2 c).maxScore = m.maxScore := if_neg hbest
    have hpos : (m.write pattern f0 width i j s1 s2 c).maxScorePos = m.maxScorePos := if_neg hbest
    refine ⟨fun h => hscore.trans (hm.other h), fun h => by omega, fun hlast _ => ?_,
      fun hlast j' h hfj hlt hh => ?_, fun hlast j' h hfj hlt hlt' hh => ?_⟩
    · have hlt : f < j := lt_of_le_of_ne hj fun heq => hbest ⟨hlast, hfirst heq⟩
      obtain ⟨h0, hle, hless, hh⟩ := hm.best hlast hlt
      rw [hscore, hpos, hbelow _ hless]
      exact ⟨h0, hle, by omega, hh⟩
    · rw [hscore]
      by_cases heq : j' = j
      · rw [heq, hself] at hh
        have := not_and.mp hbest hlast
        have := Option.some.inj hh
        omega
      · obtain ⟨hlt', hh'⟩ := hold j' h hfj hlt heq hh
        exact hm.le hlast j' h hfj hlt' hh'
    · have hlt'' : f < j := lt_of_le_of_ne hj fun heq => hbest ⟨hlast, hfirst heq⟩
      obtain ⟨_, _, hless, _⟩ := hm.best hlast hlt''
      rw [hpos] at hlt'
      rw [hscore]
      have hj'' : j' < j := by omega
      exact hm.first hlast j' h hfj hj'' hlt' ((hbelow j' hj'').symm.trans hh)

/-- **A turn keeps the rules.** -/
theorem filling_write (hr : Ready pattern st f0 width) (hi : i < pattern.length)
    (hf : st.F[i]? = some f) (hm : Filling pattern st f0 width m i f j) (hj : f ≤ j)
    (hj' : j ≤ st.lastIdx) (hc : Computed pattern st f0 width m i f j s1 s2 c) :
    Filling pattern st f0 width (m.write pattern f0 width i j s1 s2 c) i f (j + 1) := by
  have hbelow := write_below pattern f0 width m i j s1 s2 c
  obtain ⟨hhit, hf0, _⟩ := hr.row hi hf
  refine ⟨fun i' hi' g hg j' hgj hlt => ?_, fun g hg j' hgj hlt => ?_, bestTo_write hj hhit hc hm.best⟩
  · obtain ⟨h, c', hcell⟩ := hm.above i' hi' g hg j' hgj hlt
    obtain ⟨_, hg0, _⟩ := hr.row (hi'.trans hi) hg
    have hbefore := cellAt_lt hr hi' (show j' ≤ st.lastIdx by omega) (hf0.trans hj)
    exact ⟨h, c', hcell.mono hr (hg0.trans hgj) (by omega)
      fun k hk => hbelow k (hk.trans_lt hbefore)⟩
  · obtain rfl : f = g := Option.some.inj (hf.symm.trans hg)
    rcases (Int.lt_add_one_iff.mp hlt).lt_or_eq with hless | rfl
    · obtain ⟨h, c', hcell⟩ := hm.here f hf j' hgj hless
      have hbefore : cellAt f0 width i j' < cellAt f0 width i j := by
        unfold cellAt
        omega
      exact ⟨h, c', hcell.mono hr (hf0.trans hgj) (by omega)
        fun k hk => hbelow k (hk.trans_lt hbefore)⟩
    · exact ⟨_, c, goodCell_write hr hf0 hhit hj hj' hc⟩

end Write

/-- A row. -/
theorem fillRow_spec (hr : Ready pattern st f0 width) (hi : i + 1 < pattern.length) {f : ℤ}
    (hf : st.F[i + 1]? = some f) {q : ℕ} (hq : pattern[i + 1]? = some q) :
    ∀ (n : ℕ) {j : ℤ} {m : Matrix}, f ≤ j → j + n = st.lastIdx + 1 →
      Filling pattern st f0 width m (i + 1) f j →
      ∃ m', fillRow pattern st f0 width (i + 1) f q n j m = some m' ∧
        Filling pattern st f0 width m' (i + 1) f (st.lastIdx + 1)
  | 0, j, m, _, hstop, hm => ⟨m, rfl, by rwa [← hstop, Nat.cast_zero, add_zero]⟩
  | n + 1, j, m, hj, hstop, hm => by
    obtain ⟨s1, s2, c, hcell, hc⟩ := fillCell_computed hr hi hf hq hm hj (by omega)
    obtain ⟨m', hrow, hm'⟩ := fillRow_spec hr hi hf hq n (by omega) (by push_cast at hstop; omega)
      (filling_write hr hi hf hm hj (by omega) hc)
    refine ⟨m', ?_, hm'⟩
    rw [fillRow, hcell]
    exact hrow

/-- The rows before `i` are filled. -/
structure FilledRows (pattern : JsString) (st : Scan) (f0 width : ℤ) (m : Matrix) (i : ℕ) : Prop where
  rows : ∀ i' < i, FilledTo pattern st f0 width m i' (st.lastIdx + 1)
  unscored : i < pattern.length → m.maxScore = 0
  scored : ∀ k f, i = k + 1 → i = pattern.length → st.F[k]? = some f →
    BestTo pattern f0 width m k f (st.lastIdx + 1)

theorem GoodCell.congr (hH : m'.H = m.H) (hC : m'.C = m.C)
    (hc : GoodCell pattern st f0 width m i j h c) : GoodCell pattern st f0 width m' i j h c where
  score := by rw [hH, hc.score]
  run := by rw [hC, hc.run]
  nonneg := hc.nonneg
  run_nonneg := hc.run_nonneg
  run_le := hc.run_le
  hit hhit := by
    obtain ⟨d, hd, hlt⟩ := hc.hit hhit
    refine ⟨d, ?_, hlt⟩
    cases i with
    | zero => exact hd
    | succ i => rwa [diagonal, hH]
  gap hgap := by
    obtain ⟨l, hl, hor⟩ := hc.gap hgap
    exact ⟨l, by rw [hH, hl], hor⟩

/-- The rows, one after the other. -/
theorem fillRows_spec (hr : Ready pattern st f0 width) :
    ∀ (n : ℕ) {i : ℕ} {m : Matrix}, i + 1 + n = pattern.length →
      FilledRows pattern st f0 width m (i + 1) →
      ∃ m', fillRows pattern st f0 width n (i + 1) m = some m' ∧
        FilledRows pattern st f0 width m' pattern.length
  | 0, i, m, hi, hm => ⟨m, rfl, by rwa [← hi]⟩
  | n + 1, i, m, hi, hm => by
    obtain ⟨f, q, hf, hq, _, hlast, _⟩ := hr.rows (i + 1) (by omega)
    have hstart : Filling pattern st f0 width { m with inGap := false } (i + 1) f f :=
      { above := fun i' hi' g hg j hgj hlt => by
          obtain ⟨h, c, hc⟩ := hm.rows i' hi' g hg j hgj hlt
          refine ⟨h, c, GoodCell.congr ?_ ?_ hc⟩ <;> rfl
        here := fun g hg j hgj hlt => by
          obtain rfl : f = g := Option.some.inj (hf.symm.trans hg)
          omega
        best :=
          { other := fun _ => hm.unscored (by omega)
            start := fun _ => hm.unscored (by omega)
            best := fun _ h => absurd h (lt_irrefl f)
            le := fun _ j h hfj hlt => by omega
            first := fun _ j h hfj hlt => by omega } }
    obtain ⟨m', hrow, hm'⟩ := fillRow_spec hr (by omega) hf hq (st.lastIdx - f + 1).toNat le_rfl
      (by omega) hstart
    have hrows : FilledRows pattern st f0 width m' (i + 2) :=
      { rows := fun i' hi' => by
          rcases Nat.lt_succ_iff_lt_or_eq.mp hi' with hlt | rfl
          · exact hm'.above i' hlt
          · exact hm'.here
        unscored := fun hlt => hm'.best.other (by omega)
        scored := fun k g hk _ hg => by
          obtain rfl : i + 1 = k := by omega
          obtain rfl : f = g := Option.some.inj (hf.symm.trans hg)
          exact hm'.best }
    obtain ⟨m'', hrest, hm''⟩ := fillRows_spec hr n (i := i + 1) (by omega) hrows
    refine ⟨m'', ?_, hm''⟩
    rw [fillRows, hf, hq]
    show (fillRow pattern st f0 width (i + 1) f q _ f _).bind _ = _
    rw [hrow]
    exact hrest

/-- The first row obeys the rules. -/
theorem filledRows_firstRow (hr : Ready pattern st f0 width) :
    FilledRows pattern st f0 width (firstRow st f0 width) 1 where
  rows i hi f hf j hfj hlt := by
    obtain rfl : i = 0 := by omega
    obtain rfl : f0 = f := Option.some.inj (hr.first.symm.trans hf)
    obtain ⟨hhit, _, _⟩ := hr.row (by have := hr.many; omega) hf
    obtain ⟨char, _, h, c, hchar, _, _, hh, h0, hc, hc0, hc1, hpos, hgap⟩ := hr.cells j hfj (by omega)
    have hcell : ∀ (a : List ℤ) (k : ℤ), f0 ≤ k → k ≤ st.lastIdx →
        (if 0 ≤ cellAt f0 width 0 k ∧ cellAt f0 width 0 k < width then
          item a (f0 + cellAt f0 width 0 k) else none) = item a k := fun a k hk hk' => by
      have hat : cellAt f0 width 0 k = k - f0 := by
        unfold cellAt
        omega
      have := hr.width_eq
      rw [hat, if_pos ⟨by omega, by omega⟩]
      congr 1
      omega
    refine ⟨h, c, ⟨(hcell st.H0 j hfj (by omega)).trans hh, (hcell st.C0 j hfj (by omega)).trans hc,
      h0, hc0, by omega, fun hit => ⟨0, rfl, le_rfl, ?_⟩, fun hno => ?_⟩⟩
    · obtain ⟨char', hchar', his⟩ := hit
      obtain rfl : char = char' := Option.some.inj (hchar.symm.trans hchar')
      exact hpos his
    · have hless : f0 < j := lt_of_le_of_ne hfj fun heq => hno (heq ▸ hhit)
      obtain ⟨l, hl, hor⟩ := hgap (fun his => hno ⟨char, hchar, his⟩) hless
      exact ⟨l, (hcell st.H0 (j - 1) (by omega) (by omega)).trans hl, hor⟩
  unscored _ := hr.unscored
  scored k f _ hone := by
    have := hr.many
    omega

/-- **The matrix is filled**, by the rules. -/
theorem fillMatrix_spec (hr : Ready pattern st f0 width) :
    ∃ m, fillMatrix pattern st f0 width = some m ∧
      FilledRows pattern st f0 width m pattern.length :=
  fillRows_spec hr (pattern.length - 1) (i := 0) (by have := hr.many; omega) (filledRows_firstRow hr)

/-! ### The way back -/

/-- One place for each of the characters up to `i`, none behind `j`. -/
structure WayBack (pattern : JsString) (st : Scan) (f0 : ℤ) (minIdx i : ℕ) (j : ℤ)
    (positions : List ℤ) : Prop where
  length : positions.length = i + 1
  increasing : positions.Pairwise (· < ·)
  range : ∀ p ∈ positions, f0 + minIdx ≤ p ∧ p ≤ j + minIdx
  hits : ∀ (k : ℕ) p, positions[k]? = some p → Hit pattern st k (p - minIdx)

/-- The place where the way starts. -/
theorem WayBack.single {minIdx : ℕ} (hj : f0 ≤ j) (hhit : Hit pattern st 0 j) :
    WayBack pattern st f0 minIdx 0 j [j + minIdx] where
  length := rfl
  increasing := List.pairwise_singleton _ _
  range p hp := by
    rw [List.mem_singleton.mp hp]
    omega
  hits k p hp := by
    obtain ⟨hk, rfl⟩ := List.getElem?_eq_some_iff.mp hp
    obtain rfl : k = 0 := by simpa using hk
    rwa [List.getElem_cons_zero, add_sub_cancel_right]

/-- One place more. -/
theorem WayBack.snoc {minIdx : ℕ} {positions : List ℤ}
    (hw : WayBack pattern st f0 minIdx i (j - 1) positions) (hj : f0 ≤ j)
    (hhit : Hit pattern st (i + 1) j) :
    WayBack pattern st f0 minIdx (i + 1) j (positions ++ [j + minIdx]) where
  length := by rw [List.length_append, hw.length, List.length_singleton]
  increasing := by
    refine List.pairwise_append.mpr ⟨hw.increasing, List.pairwise_singleton _ _, fun p hp q hq => ?_⟩
    rw [List.mem_singleton.mp hq]
    have := (hw.range p hp).2
    omega
  range p hp := by
    rcases List.mem_append.mp hp with h | h
    · have := hw.range p h
      omega
    · rw [List.mem_singleton.mp h]
      omega
  hits k p hp := by
    rcases getElem?_snoc.mp hp with h | ⟨rfl, rfl⟩
    · exact hw.hits k p h
    · rwa [hw.length, add_sub_cancel_right]

theorem WayBack.mono {minIdx : ℕ} {positions : List ℤ} {j' : ℤ}
    (hw : WayBack pattern st f0 minIdx i j' positions) (hj : j' ≤ j) :
    WayBack pattern st f0 minIdx i j positions where
  length := hw.length
  increasing := hw.increasing
  range p hp := by
    have := hw.range p hp
    omega
  hits := hw.hits

/-- What a turn of the way back reads and decides. -/
structure Turn (pattern : JsString) (st : Scan) (f0 width : ℤ) (m : Matrix) (i : ℕ)
    (f j s s1 s2 c : ℤ) : Prop where
  score : m.H (i * width + (j - f0)) = some s
  up : (if 0 < i ∧ f ≤ j then m.H (i * width - width + (j - f0) - 1) else some 0) = some s1
  left : (if f < j then m.H (i * width + (j - f0) - 1) else some 0) = some s2
  run : m.C (i * width + (j - f0)) = some c
  up_nonneg : 0 ≤ s1
  /-- A step up is taken at a match only. -/
  hit : 0 < s → s2 ≤ s → Hit pattern st i j
  /-- At a match the cell is worth more than the one above. -/
  worth : Hit pattern st i j → s1 < s
  /-- Nothing is left of the first place. -/
  first : j = f → s2 < s

theorem exists_turn (hr : Ready pattern st f0 width)
    (hm : FilledRows pattern st f0 width m pattern.length) (hi : i < pattern.length) {f : ℤ}
    (hf : st.F[i]? = some f) (hj : f ≤ j) (hj' : j ≤ st.lastIdx) :
    ∃ s s1 s2 c, Turn pattern st f0 width m i f j s s1 s2 c := by
  obtain ⟨hhit, hf0, _⟩ := hr.row hi hf
  obtain ⟨s, c, hc⟩ := hm.rows i hi f hf j hj (by omega)
  have hup : ∃ s1, (if 0 < i ∧ f ≤ j then m.H (i * width - width + (j - f0) - 1) else some 0) =
      some s1 ∧ 0 ≤ s1 ∧ (Hit pattern st i j → s1 < s) := by
    cases i with
    | zero =>
      refine ⟨0, if_neg fun h => absurd h.1 (lt_irrefl 0), le_rfl, fun h => ?_⟩
      obtain ⟨d, hd, _, hlt⟩ := hc.hit h
      obtain rfl : 0 = d := Option.some.inj hd
      exact hlt
    | succ i =>
      obtain ⟨g, _, hg, _, _⟩ := hr.rows i (by omega)
      have hgf := hr.next i g f hg hf
      obtain ⟨d, _, hd⟩ := hm.rows i (by omega) g hg (j - 1) (by omega) (by omega)
      refine ⟨d, ?_, hd.nonneg, fun h => ?_⟩
      · rw [if_pos ⟨Nat.succ_pos i, hj⟩, cellAt_diagonal, hd.score]
      · obtain ⟨d', hd', _, hlt⟩ := hc.hit h
        obtain rfl : d = d' := Option.some.inj (hd.score.symm.trans hd')
        exact hlt
  obtain ⟨s1, hs1, h0, hworth⟩ := hup
  by_cases hlt : f < j
  · obtain ⟨l, _, hl⟩ := hm.rows i hi f hf (j - 1) (by omega) (by omega)
    refine ⟨s, s1, l, c, hc.score, hs1, ?_, hc.run, h0, fun hpos hle => ?_, hworth,
      fun h => by omega⟩
    · rw [if_pos hlt, cellAt_pred, hl.score]
    · by_contra hno
      obtain ⟨l', hl', hor⟩ := hc.gap hno
      obtain rfl : l = l' := Option.some.inj (hl.score.symm.trans hl')
      omega
  · obtain rfl : f = j := by omega
    have hpos := hworth hhit
    exact ⟨s, s1, 0, c, hc.score, hs1, if_neg hlt, hc.run, h0, fun _ _ => hhit, hworth,
      fun _ => by omega⟩

/-- A turn that reads these values. -/
theorem backtrace_turn {f s s1 s2 : ℤ} (hf : st.F[i]? = some f)
    (ht : Turn pattern st f0 width m i f j s s1 s2 c) (minIdx fuel : ℕ) (preferMatch : Bool)
    (positions : List ℤ) :
    backtrace pattern st f0 width m minIdx (fuel + 1) i j preferMatch positions =
      if IsMatch s s1 s2 preferMatch then
        if i = 0 then some ((j + minIdx) :: positions)
        else backtrace pattern st f0 width m minIdx fuel (i - 1) (j - 1)
          (preferNext pattern f0 width m i j c) ((j + minIdx) :: positions)
      else backtrace pattern st f0 width m minIdx fuel i (j - 1)
        (preferNext pattern f0 width m i j c) positions := by
  rw [backtrace]
  simp only [hf, ht.score, ht.up, ht.left, ht.run, Option.bind_eq_bind, Option.bind_some]

/-- **The way back.** It ends after one turn for each column at most, reads
filled cells only, and leads to one place for each character, the last of them
where it starts if its first turn is a match. -/
theorem backtrace_spec (hr : Ready pattern st f0 width)
    (hm : FilledRows pattern st f0 width m pattern.length) (minIdx : ℕ) :
    ∀ (n : ℕ) {i : ℕ} {f j : ℤ} (preferMatch : Bool) (positions : List ℤ),
      i < pattern.length → st.F[i]? = some f → f ≤ j → j ≤ st.lastIdx → j - f0 < n →
      ∃ way, WayBack pattern st f0 minIdx i j way ∧
        (∀ fuel, n ≤ fuel → backtrace pattern st f0 width m minIdx fuel i j preferMatch positions =
          some (way ++ positions)) ∧
        ((∀ s s1 s2 c, Turn pattern st f0 width m i f j s s1 s2 c → IsMatch s s1 s2 preferMatch) →
          way.getLast? = some (j + minIdx)) := by
  intro n
  induction n with
  | zero =>
    intro i f j preferMatch positions hi hf hj _ hn
    have := (hr.row hi hf).2.1
    omega
  | succ n ih =>
    intro i f j preferMatch positions hi hf hj hj' hn
    obtain ⟨hhit, hf0, _⟩ := hr.row hi hf
    obtain ⟨s, s1, s2, c, ht⟩ := exists_turn hr hm hi hf hj hj'
    have hturn := backtrace_turn hf ht minIdx
    by_cases hmatch : IsMatch s s1 s2 preferMatch
    · have hthere : Hit pattern st i j := by
        refine ht.hit (ht.up_nonneg.trans_lt hmatch.1) ?_
        rcases hmatch.2 with h | h
        · exact h.le
        · exact h.1.ge
      cases i with
      | zero =>
        refine ⟨[j + minIdx], .single (hf0.trans hj) hthere, fun fuel hfuel => ?_, fun _ => rfl⟩
        obtain ⟨fuel, rfl⟩ := Nat.exists_eq_add_of_lt hfuel
        rw [hturn, if_pos hmatch, if_pos rfl]
        rfl
      | succ i =>
        obtain ⟨g, _, hg, _, hg0, _⟩ := hr.rows i (by omega)
        have hgf := hr.next i g f hg hf
        obtain ⟨way, hway, hback, _⟩ := ih (preferNext pattern f0 width m (i + 1) j c)
          ((j + minIdx) :: positions) (by omega) hg (show g ≤ j - 1 by omega) (by omega) (by omega)
        refine ⟨way ++ [j + minIdx], hway.snoc (hf0.trans hj) hthere, fun fuel hfuel => ?_,
          fun _ => List.getLast?_concat ..⟩
        obtain ⟨fuel, rfl⟩ : ∃ k, fuel = k + 1 := ⟨fuel - 1, by omega⟩
        rw [hturn, if_pos hmatch, if_neg (Nat.succ_ne_zero i), Nat.add_sub_cancel,
          hback fuel (by omega), List.append_assoc]
        rfl
    · have hlt : f < j := by
        refine lt_of_le_of_ne hj fun heq => hmatch ?_
        subst heq
        exact ⟨ht.worth hhit, .inl (ht.first rfl)⟩
      obtain ⟨way, hway, hback, _⟩ := ih (preferNext pattern f0 width m i j c) positions hi hf
        (show f ≤ j - 1 by omega) (by omega) (by omega)
      refine ⟨way, hway.mono (by omega), fun fuel hfuel => ?_,
        fun hfirst => absurd (hfirst s s1 s2 c ht) hmatch⟩
      obtain ⟨fuel, rfl⟩ : ∃ k, fuel = k + 1 := ⟨fuel - 1, by omega⟩
      rw [hturn, if_neg hmatch, hback fuel (by omega)]

/-- The first place of the best score is a match. -/
theorem isMatch_best {k : ℕ} {f : ℤ} (hk : k + 1 = pattern.length) (hlast : f ≤ st.lastIdx)
    (hbest : BestTo pattern f0 width m k f (st.lastIdx + 1)) {s s1 s2 : ℤ}
    (ht : Turn pattern st f0 width m k f m.maxScorePos s s1 s2 c) : IsMatch s s1 s2 true := by
  obtain ⟨hpos, hf, hlt, hH⟩ := hbest.best hk (by omega)
  obtain rfl : s = m.maxScore := Option.some.inj (ht.score.symm.trans hH)
  have hless : s2 < m.maxScore := by
    have hleft := ht.left
    by_cases hfirst : f < m.maxScorePos
    · rw [if_pos hfirst, cellAt_pred] at hleft
      exact hbest.first hk _ _ (by omega) (by omega) (by omega) hleft
    · exact ht.first (by omega)
  exact ⟨ht.worth (ht.hit hpos hless.le), .inl hless⟩

/-! ### Cells that are not filled -/

/-- The matrix with its open cells filled with this run length. -/
def Matrix.completed (m : Matrix) (run : ℤ) : Matrix := { m with C := fun k => some ((m.C k).getD run) }

/-- A cell that is not filled counts as one without a match. -/
theorem backtrace_completed {minIdx : ℕ} {way : List ℤ} : ∀ (fuel : ℕ) {i : ℕ} {j : ℤ}
    {preferMatch : Bool} {positions : List ℤ},
    backtrace pattern st f0 width m minIdx fuel i j preferMatch positions = some way →
      backtrace pattern st f0 width (m.completed 0) minIdx fuel i j preferMatch positions = some way
  | 0, _, _, _, _, h => h
  | fuel + 1, i, j, preferMatch, positions, h => by
    have hprefer : ∀ c, preferNext pattern f0 width (m.completed 0) i j c =
        preferNext pattern f0 width m i j c := fun c => rfl
    rw [backtrace] at h ⊢
    simp only [Option.bind_eq_bind, Option.bind_eq_some_iff, hprefer] at h ⊢
    obtain ⟨f, hf, s, hs, s1, hs1, s2, hs2, h⟩ := h
    refine ⟨f, hf, s, hs, s1, hs1, s2, hs2, ?_⟩
    have hrun : ∀ k c, m.C k = some c → (m.completed 0).C k = some c := fun k c hc => by
      show some ((m.C k).getD 0) = _
      rw [hc, Option.getD_some]
    by_cases hmatch : IsMatch s s1 s2 preferMatch
    · rw [if_pos hmatch] at h ⊢
      by_cases hzero : i = 0
      · rwa [if_pos hzero] at h ⊢
      · rw [if_neg hzero] at h ⊢
        obtain ⟨c, hc, h⟩ := Option.bind_eq_some_iff.mp h
        exact Option.bind_eq_some_iff.mpr ⟨c, hrun _ c hc, backtrace_completed fuel h⟩
    · rw [if_neg hmatch] at h ⊢
      obtain ⟨c, hc, h⟩ := Option.bind_eq_some_iff.mp h
      exact Option.bind_eq_some_iff.mpr ⟨c, hrun _ c hc, backtrace_completed fuel h⟩

end

/-! ### The match in a window -/

section

variable {u : Unicode} {caseSensitive : Bool} {text pattern : JsString} {minIdx maxIdx : ℕ}

/-- The positions are a match: they increase, there is one for each character
of the pattern, and there the text has that character. The last of them is the
end of the match. -/
structure IsMatchOf (caseSensitive : Bool) (text pattern : JsString) (r : FuzzyResult)
    (positions : List ℤ) : Prop where
  increasing : positions.Pairwise (· < ·)
  length : positions.length = pattern.length
  spells : ∀ (k : ℕ) p, positions[k]? = some p →
    ∃ c, item text p = some c ∧ pattern[k]? = some (fold caseSensitive c)
  start : ∀ p ∈ positions, r.start ≤ p
  stop : positions.getLast? = some (r.stop - 1)

/-- What stands in the window stands in the text. -/
theorem item_window {st : Scan} {done rest : JsString} (hs : Scanned u caseSensitive pattern done st)
    (hwindow : substring text minIdx maxIdx = done ++ rest) {k : ℕ} {j : ℤ}
    (hhit : Hit pattern st k j) :
    ∃ c, item text (j + minIdx) = some c ∧ pattern[k]? = some (fold caseSensitive c) := by
  obtain ⟨char, hitem, hchar⟩ := hhit
  unfold item at hitem
  split_ifs at hitem with h0
  rw [hs.T, List.getElem?_map, Option.map_eq_some_iff] at hitem
  obtain ⟨c, hc, rfl⟩ := hitem
  obtain ⟨n, rfl⟩ := Int.eq_ofNat_of_zero_le h0
  refine ⟨c, ?_, (isChar_readChar u).mp hchar⟩
  have hlt := (List.getElem?_eq_some_iff.mp hc).1
  have hsub : (substring text minIdx maxIdx)[n]? = some c := by
    rw [hwindow, List.getElem?_append_left (by simpa using hlt)]
    simpa using hc
  rw [substring, List.getElem?_take] at hsub
  split_ifs at hsub
  rw [List.getElem?_drop] at hsub
  rw [show ((n : ℕ) : ℤ) + minIdx = ((minIdx + n : ℕ) : ℤ) by push_cast; ring, item_natCast, hsub]

/-- The way back through the matrix of a window, after this edit of it. -/
def wayThrough (u : Unicode) (caseSensitive : Bool) (text pattern : JsString)
    (fuel minIdx maxIdx : ℕ) (edit : Matrix → Matrix) : Option (List ℤ) := do
  let st := scanWindow u caseSensitive pattern text minIdx maxIdx
  let f0 ← st.F[0]?
  let width := st.lastIdx - f0 + 1
  let m ← fillMatrix pattern st f0 width
  backtrace pattern st f0 width (edit m) minIdx fuel (pattern.length - 1) m.maxScorePos true []

/-- What a run on a window comes to. -/
structure WindowResult (u : Unicode) (caseSensitive : Bool) (text pattern : JsString)
    (minIdx maxIdx : ℕ) (withPos : Bool) (out : Option FuzzyResult) : Prop where
  isSome_iff : out.isSome ↔
    leftOver (Takes caseSensitive) pattern (substring text minIdx maxIdx) = []
  positions : withPos → ∀ r, out = some r → ∃ way, r.positions = some way ∧
    IsMatchOf caseSensitive text pattern r way ∧
    (pattern.length ≠ 1 → ∀ fuel, text.length ≤ fuel →
      wayThrough u caseSensitive text pattern fuel minIdx maxIdx id = some way ∧
        wayThrough u caseSensitive text pattern fuel minIdx maxIdx (Matrix.completed · 0) = some way)

/-- The matrix and the way back for a pattern of several characters. -/
theorem Scanned.way {done : JsString} {st : Scan}
    (hs : Scanned u caseSensitive pattern done st) (hF : st.F.length = pattern.length)
    (hmany : 2 ≤ pattern.length) (minIdx : ℕ) :
    ∃ f0 m way, st.F[0]? = some f0 ∧ fillMatrix pattern st f0 (st.lastIdx - f0 + 1) = some m ∧
      0 < m.maxScore ∧ WayBack pattern st f0 minIdx (pattern.length - 1) m.maxScorePos way ∧
      way.getLast? = some (m.maxScorePos + minIdx) ∧
      ∀ fuel, done.length ≤ fuel →
        backtrace pattern st f0 (st.lastIdx - f0 + 1) m minIdx fuel (pattern.length - 1)
          m.maxScorePos true [] = some way := by
  have hpos : 0 < st.F.length := by omega
  have hfirst : st.F[0]? = some st.F[0] := List.getElem?_eq_getElem hpos
  have hr := hs.ready hF hmany hfirst
  obtain ⟨m, hfill, hm⟩ := fillMatrix_spec hr
  obtain ⟨f, _, hf, _, _, hle, _⟩ := hr.rows (pattern.length - 1) (by omega)
  have hlast : pattern.length - 1 + 1 = pattern.length := by omega
  have hbest := hm.scored (pattern.length - 1) f hlast.symm rfl hf
  obtain ⟨hpositive, hfm, hml, _⟩ := hbest.best hlast (by omega)
  have h0 := (hs.found 0 _ hfirst).1
  have hdone := (hs.last f (List.mem_of_getElem? hf)).2
  obtain ⟨way, hway, hback, hend⟩ := backtrace_spec hr hm minIdx done.length true []
    (show pattern.length - 1 < pattern.length by omega) hf hfm (by omega) (by omega)
  refine ⟨_, m, way, hfirst, hfill, hpositive, hway, hend fun s s1 s2 c ht => ?_, fun fuel hfuel => ?_⟩
  · exact isMatch_best hlast hle hbest ht
  · rw [hback fuel hfuel, List.append_nil]

/-- The pattern has one character: its best place. -/
theorem windowResult_single (hone : pattern.length = 1) {done rest : JsString} {st : Scan}
    (hs : Scanned u caseSensitive pattern done st) (hF : st.F.length = pattern.length)
    (hwindow : substring text minIdx maxIdx = done ++ rest) {r : FuzzyResult}
    (hstart : r.start = minIdx + st.maxScorePos) (hstop : r.stop = minIdx + st.maxScorePos + 1) :
    IsMatchOf caseSensitive text pattern r [minIdx + st.maxScorePos] where
  increasing := List.pairwise_singleton _ _
  length := hone.symm
  spells k p hp := by
    obtain ⟨hk, rfl⟩ := List.getElem?_eq_some_iff.mp hp
    obtain rfl : k = 0 := by simpa using hk
    have hne : st.F ≠ [] := List.length_pos_iff.mp (by omega)
    have hhit := item_window hs hwindow (hs.single hone hne).2
    rwa [add_comm] at hhit
  start p hp := by
    rw [List.mem_singleton.mp hp, hstart]
  stop := by
    rw [hstop, add_sub_cancel_right]
    rfl

theorem windowResult_many {done rest : JsString} {st : Scan}
    (hs : Scanned u caseSensitive pattern done st)
    (hwindow : substring text minIdx maxIdx = done ++ rest) (hmany : 2 ≤ pattern.length)
    {f0 : ℤ} {m : Matrix} {way : List ℤ}
    (hway : WayBack pattern st f0 minIdx (pattern.length - 1) m.maxScorePos way)
    (hend : way.getLast? = some (m.maxScorePos + minIdx)) {r : FuzzyResult}
    (hstart : r.start = minIdx + f0) (hstop : r.stop = minIdx + m.maxScorePos + 1) :
    IsMatchOf caseSensitive text pattern r way where
  increasing := hway.increasing
  length := by
    rw [hway.length]
    omega
  spells k p hp := by
    have hhit := item_window hs hwindow (hway.hits k p hp)
    rwa [sub_add_cancel] at hhit
  start p hp := by
    have := (hway.range p hp).1
    omega
  stop := by
    rw [hend, hstop]
    congr 1
    omega

/-- What is read of a window is no longer than the text. -/
theorem length_le_of_window {done rest : JsString}
    (hwindow : substring text minIdx maxIdx = done ++ rest) : done.length ≤ text.length := by
  have hle : (substring text minIdx maxIdx).length ≤ text.length := by
    rw [substring, List.length_take, List.length_drop]
    omega
  rw [hwindow, List.length_append] at hle
  omega

/-- The scan finds all characters exactly if they embed in the window. -/
theorem scanWindow_complete_iff (u : Unicode) (caseSensitive : Bool) (text pattern : JsString)
    (minIdx maxIdx : ℕ) :
    (scanWindow u caseSensitive pattern text minIdx maxIdx).F.length = pattern.length ↔
      leftOver (Takes caseSensitive) pattern (substring text minIdx maxIdx) = [] := by
  obtain ⟨done, rest, hwindow, hs, hrest⟩ := scanned_scanWindow u caseSensitive pattern text
    minIdx maxIdx
  rw [hwindow, leftOver_append]
  refine ⟨fun h => by rw [hs.left_eq_nil.mpr h, leftOver_nil], fun h => ?_⟩
  by_cases hnil : rest = []
  · rw [hnil, leftOver_empty] at h
    exact hs.left_eq_nil.mp h
  · exact hrest hnil

/-- **A run on a window** ends, with enough turns for the way back. -/
theorem matchWindow_spec (u : Unicode) (caseSensitive : Bool) (text : JsString)
    (hne : pattern ≠ []) (minIdx maxIdx : ℕ) (withPos : Bool) :
    ∃ out, (∀ fuel, text.length ≤ fuel →
        matchWindow u text pattern withPos caseSensitive fuel minIdx maxIdx = some out) ∧
      WindowResult u caseSensitive text pattern minIdx maxIdx withPos out := by
  obtain ⟨done, rest, hwindow, hs, _⟩ := scanned_scanWindow u caseSensitive pattern text
    minIdx maxIdx
  obtain ⟨st, hst⟩ : ∃ st, scanWindow u caseSensitive pattern text minIdx maxIdx = st := ⟨_, rfl⟩
  have haccept := scanWindow_complete_iff u caseSensitive text pattern minIdx maxIdx
  rw [hst] at hs haccept
  have hlen := length_le_of_window hwindow
  by_cases hF : st.F.length = pattern.length
  · by_cases hone : pattern.length = 1
    · refine ⟨some ⟨minIdx + st.maxScorePos, minIdx + st.maxScorePos + 1, st.maxScore,
        if withPos then some [minIdx + st.maxScorePos] else none⟩, fun fuel _ => ?_,
        iff_of_true rfl (haccept.mp hF), fun hpos r hr => ?_⟩
      · unfold matchWindow
        dsimp only
        rw [hst, if_neg (not_not.mpr hF), if_pos hone]
      · obtain rfl := Option.some.inj hr
        exact ⟨_, if_pos hpos, windowResult_single hone hs hF hwindow rfl rfl, fun h => absurd hone h⟩
    · have hmany : 2 ≤ pattern.length := by
        have := List.length_pos_iff.mpr hne
        omega
      obtain ⟨f0, m, way, hfirst, hfill, _, hway, hend, hback⟩ := hs.way hF hmany minIdx
      refine ⟨some ⟨minIdx + f0, minIdx + m.maxScorePos + 1, m.maxScore,
        if withPos then some way else none⟩, fun fuel hfuel => ?_, iff_of_true rfl (haccept.mp hF),
        fun hpos r hr => ?_⟩
      · unfold matchWindow
        dsimp only
        rw [hst, if_neg (not_not.mpr hF), if_neg hone]
        simp only [hfirst, hfill, Option.bind_eq_bind, Option.bind_some,
          hback fuel (hlen.trans hfuel)]
        cases withPos <;> rfl
      · obtain rfl := Option.some.inj hr
        refine ⟨way, if_pos hpos, windowResult_many hs hwindow hmany hway hend rfl rfl,
          fun _ fuel hfuel => ?_⟩
        have hthere := hback fuel (hlen.trans hfuel)
        unfold wayThrough
        simp only [hst, hfirst, hfill, Option.bind_eq_bind, Option.bind_some]
        exact ⟨hthere, backtrace_completed fuel hthere⟩
  · refine ⟨none, fun fuel _ => ?_, iff_of_false nofun fun h => hF (haccept.mpr h),
      fun _ _ h => by cases h⟩
    unfold matchWindow
    dsimp only
    rw [hst, if_pos hF]

end

end Fuzzy
end Gitdot
