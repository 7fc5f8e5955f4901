/-
# Fuzzy search: the window is only an optimisation

A scan of the whole text goes with one of the window, some characters behind
it (`Moved`): in front of the window nothing scores (`moved_front`), in it
both do the same (`Moved.run`), and behind it nothing is noted any more
(`grown_run`). From what they note the same matrix is filled and the same way
found back, so many columns further on (`Carried.fillMatrix`,
`Carried.backtrace`).

So the search in the window has the result of one in the text
(`fuzzyMatchV2_eq_whole`).

Key definitions: `Moved`, `Grown`, `Carried`, `SameMatrix`.
Key theorems: `Moved.step`, `Moved.run`, `carried_window`,
`Carried.fillMatrix`, `Carried.backtrace`, `fuzzyMatchV2_eq_whole`.
-/
import Gitdot.Web.FuzzyWindow

namespace Gitdot
namespace Fuzzy

open Lib

/-! ### Two scans -/

/-- The list with so many elements more in front. -/
def Behind {α : Type} (a : ℕ) (l l' : List α) : Prop := ∃ front, front.length = a ∧ l' = front ++ l

/-- The second scan does what the first one does, `a` characters later. A gap
that has cost everything already is as good as none. -/
structure Moved (a : ℕ) (st st' : Scan) : Prop where
  T : Behind a st.T st'.T
  B : Behind a st.B st'.B
  H0 : Behind a st.H0 st'.H0
  C0 : Behind a st.C0 st'.C0
  F : st'.F = st.F.map (· + (a : ℤ))
  lastIdx : st.F ≠ [] → st'.lastIdx = st.lastIdx + a
  maxScore : st'.maxScore = st.maxScore
  maxScorePos : 0 < st.maxScore → st'.maxScorePos = st.maxScorePos + a
  prevH0 : st'.prevH0 = st.prevH0
  prevClass : st'.prevClass = st.prevClass
  inGap : st'.inGap = st.inGap ∨ st.prevH0 = 0

section

variable {u : Unicode} {caseSensitive : Bool} {pattern text : JsString} {a : ℕ} {st st' : Scan}

theorem Behind.snoc {α : Type} {l l' : List α} (h : Behind a l l') (x : α) :
    Behind a (l ++ [x]) (l' ++ [x]) := by
  obtain ⟨front, hlen, rfl⟩ := h
  exact ⟨front, hlen, List.append_assoc ..⟩

theorem Moved.firstScore (hm : Moved a st st') (unit : ℕ) :
    st'.firstScore u unit = st.firstScore u unit := by
  rw [Scan.firstScore, Scan.firstScore, hm.prevClass]

theorem Moved.nextH0 (hm : Moved a st st') (unit : ℕ) :
    st'.nextH0 u caseSensitive pattern unit = st.nextH0 u caseSensitive pattern unit := by
  unfold Scan.nextH0
  rw [hm.firstScore, hm.prevH0]
  rcases hm.inGap with h | h
  · rw [h]
  · rw [h, scoreGapExtension, scoreGapStart]
    congr 1
    cases st.inGap <;> cases st'.inGap <;> rfl

theorem Moved.stops_iff (hm : Moved a st st') (unit : ℕ) :
    st'.stops u caseSensitive pattern unit ↔ st.stops u caseSensitive pattern unit := by
  unfold Scan.stops
  rw [hm.firstScore, hm.maxScore, hm.prevClass]

theorem Behind.length {α : Type} {l l' : List α} (h : Behind a l l') :
    (l'.length : ℤ) = l.length + a := by
  obtain ⟨front, hlen, rfl⟩ := h
  rw [List.length_append, hlen]
  omega

/-- A turn of both. -/
theorem Moved.step (hm : Moved a st st') (unit : ℕ) :
    Moved a (st.step u caseSensitive pattern unit) (st'.step u caseSensitive pattern unit) := by
  have hoff := hm.T.length
  have hpidx : st'.F.length = st.F.length := by rw [hm.F, List.length_map]
  refine
    { T := hm.T.snoc _, B := ?_, H0 := ?_, C0 := hm.C0.snoc _, F := ?_, lastIdx := fun hne => ?_
      maxScore := ?_, maxScorePos := fun hpos => ?_, prevH0 := hm.nextH0 unit, prevClass := rfl
      inGap := .inl rfl }
  · show Behind a (st.B ++ [_]) (st'.B ++ [_])
    rw [hm.prevClass]
    exact hm.B.snoc _
  · show Behind a (st.H0 ++ [_]) (st'.H0 ++ [_])
    rw [hm.nextH0]
    exact hm.H0.snoc _
  · show (if _ then _ else _) = (if _ then _ else _ : List ℤ).map _
    rw [hpidx, apply_ite (List.map (· + (a : ℤ))), List.map_append, hm.F, hoff]
    rfl
  · have hne' : (if IsChar pattern (min st.F.length (pattern.length - 1))
        (readChar u caseSensitive unit) ∧ st.F.length < pattern.length then
        st.F ++ [(st.T.length : ℤ)] else st.F) ≠ [] := hne
    show (if _ then _ else _) = (if _ then _ else _ : ℤ) + a
    rw [hpidx, hoff]
    by_cases hchar : IsChar pattern (min st.F.length (pattern.length - 1))
        (readChar u caseSensitive unit)
    · rw [if_pos hchar, if_pos hchar]
    · rw [if_neg hchar, if_neg hchar]
      rw [if_neg fun h => hchar h.1] at hne'
      exact hm.lastIdx hne'
  · show (if _ then _ else _) = (if _ then _ else _ : ℤ)
    rw [hm.firstScore, hm.maxScore]
  · have hpos' : 0 < if IsChar pattern 0 (readChar u caseSensitive unit) ∧ pattern.length = 1 ∧
        st.maxScore < st.firstScore u unit then st.firstScore u unit else st.maxScore := hpos
    show (if _ then _ else _) = (if _ then _ else _ : ℤ) + a
    rw [hm.firstScore, hm.maxScore, hoff]
    by_cases hbest : IsChar pattern 0 (readChar u caseSensitive unit) ∧ pattern.length = 1 ∧
        st.maxScore < st.firstScore u unit
    · rw [if_pos hbest, if_pos hbest]
    · rw [if_neg hbest, if_neg hbest]
      rw [if_neg hbest] at hpos'
      exact hm.maxScorePos hpos'

/-- A run of both. -/
theorem Moved.run : ∀ (units : JsString) {st st' : Scan}, Moved a st st' →
    Moved a (st.run u caseSensitive pattern units) (st'.run u caseSensitive pattern units)
  | [], _, _, hm => hm
  | unit :: units, st, st', hm => by
    rw [Scan.run, Scan.run]
    by_cases hstops : st.stops u caseSensitive pattern unit
    · rw [if_pos hstops, if_pos ((hm.stops_iff unit).mpr hstops)]
      exact hm.step unit
    · rw [if_neg hstops, if_neg fun h => hstops ((hm.stops_iff unit).mp h)]
      exact Moved.run units (hm.step unit)

/-! ### In front of the window -/

theorem Behind.snoc_nil {α : Type} {x : α} {l' : List α} (h : Behind a [x] l') :
    Behind (a + 1) [] l' := by
  obtain ⟨front, hlen, rfl⟩ := h
  exact ⟨front ++ [x], by rw [List.length_append, hlen, List.length_singleton], by simp⟩

/-- A character that is not the first one of the pattern, before anything is found. -/
theorem moved_pass {prevClass : CharClass} (hm : Moved a (.initial prevClass) st') {unit : ℕ}
    (hno : ¬ IsChar pattern 0 (readChar u caseSensitive unit)) :
    ¬ st'.stops u caseSensitive pattern unit ∧
      Moved (a + 1) (.initial (charClassOf u unit)) (st'.step u caseSensitive pattern unit) := by
  have hstep : Moved a ((Scan.initial prevClass).step u caseSensitive pattern unit)
      (st'.step u caseSensitive pattern unit) := hm.step unit
  have hH0 : (Scan.initial prevClass).nextH0 u caseSensitive pattern unit = 0 := by
    rw [Scan.nextH0, if_neg hno]
    rfl
  have hF : ((Scan.initial prevClass).step u caseSensitive pattern unit).F = [] :=
    if_neg fun h => hno (by simpa [Scan.initial] using h.1)
  have hmax : ((Scan.initial prevClass).step u caseSensitive pattern unit).maxScore = 0 :=
    if_neg fun h => hno h.1
  refine ⟨fun h => hno h.1, hstep.T.snoc_nil, hstep.B.snoc_nil, hstep.H0.snoc_nil,
    hstep.C0.snoc_nil, ?_, fun h => absurd rfl h, ?_, fun h => absurd h (lt_irrefl 0), ?_,
    hstep.prevClass, .inr rfl⟩
  · rw [hstep.F, hF]
    rfl
  · rw [hstep.maxScore, hmax]
    rfl
  · rw [hstep.prevH0]
    exact hH0

/-- In front of the window the scan of the text scores nothing. -/
theorem moved_front (rest : JsString) : ∀ (front : JsString) {a : ℕ} {prevClass : CharClass}
    {st' : Scan}, Moved a (.initial prevClass) st' →
    (∀ c ∈ front, ¬ IsChar pattern 0 (readChar u caseSensitive c)) →
    ∃ st'', st'.run u caseSensitive pattern (front ++ rest) = st''.run u caseSensitive pattern rest ∧
      Moved (a + front.length)
        (.initial (front.foldl (fun _ c => charClassOf u c) prevClass)) st''
  | [], _, _, st', hm, _ => ⟨st', rfl, hm⟩
  | unit :: front, a, prevClass, st', hm, hno => by
    obtain ⟨hstops, hpass⟩ := moved_pass hm (hno unit List.mem_cons_self)
    obtain ⟨st'', hrun, hm''⟩ := moved_front rest front hpass
      fun c hc => hno c (List.mem_cons_of_mem unit hc)
    refine ⟨st'', ?_, ?_⟩
    · rw [List.cons_append, Scan.run, if_neg hstops, hrun]
    · rw [List.length_cons, show a + (front.length + 1) = a + 1 + front.length by omega]
      exact hm''

theorem classBefore_eq (u : Unicode) (text : JsString) : ∀ {k : ℕ}, k ≤ text.length →
    (text.take k).foldl (fun _ c => charClassOf u c) .white = classBefore u text k
  | 0, _ => rfl
  | k + 1, hk => by
    rw [List.take_add_one, List.getElem?_eq_getElem hk, Option.toList_some, List.foldl_append,
      classBefore, List.getElem?_eq_getElem hk]
    rfl

/-! ### Behind the window -/

/-- What the second scan read more changed nothing that counts. -/
structure Grown (st st' : Scan) : Prop where
  T : st.T <+: st'.T
  B : st.B <+: st'.B
  H0 : st.H0 <+: st'.H0
  C0 : st.C0 <+: st'.C0
  F : st'.F = st.F
  lastIdx : st'.lastIdx = st.lastIdx
  maxScore : st'.maxScore = st.maxScore
  maxScorePos : st'.maxScorePos = st.maxScorePos

theorem Grown.refl (st : Scan) : Grown st st :=
  ⟨List.prefix_rfl, List.prefix_rfl, List.prefix_rfl, List.prefix_rfl, rfl, rfl, rfl, rfl⟩

theorem Grown.trans {st'' : Scan} (h : Grown st st') (h' : Grown st' st'') : Grown st st'' where
  T := h.T.trans h'.T
  B := h.B.trans h'.B
  H0 := h.H0.trans h'.H0
  C0 := h.C0.trans h'.C0
  F := h'.F.trans h.F
  lastIdx := h'.lastIdx.trans h.lastIdx
  maxScore := h'.maxScore.trans h.maxScore
  maxScorePos := h'.maxScorePos.trans h.maxScorePos

/-- With all characters found, one that is not the last of them changes nothing. -/
theorem grown_step (hF : st.F.length = pattern.length) {unit : ℕ}
    (hno : ¬ IsChar pattern (pattern.length - 1) (readChar u caseSensitive unit)) :
    ¬ st.stops u caseSensitive pattern unit ∧ Grown st (st.step u caseSensitive pattern unit) := by
  have hmin : min st.F.length (pattern.length - 1) = pattern.length - 1 := by omega
  have hsingle : ¬ (IsChar pattern 0 (readChar u caseSensitive unit) ∧ pattern.length = 1) :=
    fun ⟨hchar, hone⟩ => hno (by rwa [hone])
  refine ⟨fun h => hsingle ⟨h.1, h.2.1⟩, List.prefix_append _ _, List.prefix_append _ _,
    List.prefix_append _ _, List.prefix_append _ _, if_neg fun h => ?_, if_neg fun h => ?_,
    if_neg fun h => hsingle ⟨h.1, h.2.1⟩, if_neg fun h => hsingle ⟨h.1, h.2.1⟩⟩
  · rw [hmin] at h
    exact hno h.1
  · rw [hmin] at h
    exact hno h

theorem grown_run : ∀ (back : JsString) {st : Scan}, st.F.length = pattern.length →
    (∀ c ∈ back, ¬ IsChar pattern (pattern.length - 1) (readChar u caseSensitive c)) →
    Grown st (st.run u caseSensitive pattern back)
  | [], st, _, _ => .refl st
  | unit :: back, st, hF, hno => by
    obtain ⟨hstops, hgrown⟩ := grown_step hF (hno unit List.mem_cons_self)
    rw [Scan.run, if_neg hstops]
    exact hgrown.trans (grown_run back (by rw [hgrown.F, hF])
      fun c hc => hno c (List.mem_cons_of_mem unit hc))

/-- A scan that finds everything in the window, with what stands behind it. -/
theorem grown_append (back : JsString)
    (hno : ∀ c ∈ back, ¬ IsChar pattern (pattern.length - 1) (readChar u caseSensitive c)) :
    ∀ (window : JsString) {st : Scan},
      (st.run u caseSensitive pattern window).F.length = pattern.length →
      Grown (st.run u caseSensitive pattern window)
        (st.run u caseSensitive pattern (window ++ back))
  | [], st, hF => grown_run back hF hno
  | unit :: window, st, hF => by
    rw [List.cons_append, Scan.run, Scan.run]
    rw [Scan.run] at hF
    by_cases hstops : st.stops u caseSensitive pattern unit
    · rw [if_pos hstops, if_pos hstops]
      exact .refl _
    · rw [if_neg hstops] at hF ⊢
      rw [if_neg hstops]
      exact grown_append back hno window hF

/-! ### What is handed over -/

/-- What one scan notes, the other one does too, `a` places further on. -/
structure Carried (a : ℤ) (st st' : Scan) : Prop where
  T : ∀ j x, item st.T j = some x → item st'.T (j + a) = some x
  B : ∀ j x, item st.B j = some x → item st'.B (j + a) = some x
  H0 : ∀ j x, item st.H0 j = some x → item st'.H0 (j + a) = some x
  C0 : ∀ j x, item st.C0 j = some x → item st'.C0 (j + a) = some x
  F : st'.F = st.F.map (· + a)
  lastIdx : st'.lastIdx = st.lastIdx + a
  maxScore : st'.maxScore = st.maxScore
  maxScorePos : 0 < st.maxScore → st'.maxScorePos = st.maxScorePos + a

theorem item_behind {α : Type} {l l' l'' : List α} (h : Behind a l l') (h' : l' <+: l'') {j : ℤ}
    {x : α} (hx : item l j = some x) : item l'' (j + a) = some x := by
  obtain ⟨front, hlen, rfl⟩ := h
  obtain ⟨back, rfl⟩ := h'
  unfold item at hx
  split_ifs at hx with h0
  obtain ⟨n, rfl⟩ := Int.eq_ofNat_of_zero_le h0
  have hn := (List.getElem?_eq_some_iff.mp hx).1
  rw [show ((n : ℕ) : ℤ) + a = ((n + a : ℕ) : ℤ) by push_cast; rfl, item_natCast,
    List.getElem?_append_left (by rw [List.length_append]; omega),
    List.getElem?_append_right (by omega), ← hx]
  congr 1
  simp [hlen]

theorem moved_self (prevClass : CharClass) :
    Moved 0 (.initial prevClass) (.initial prevClass) where
  T := ⟨[], rfl, rfl⟩
  B := ⟨[], rfl, rfl⟩
  H0 := ⟨[], rfl, rfl⟩
  C0 := ⟨[], rfl, rfl⟩
  F := rfl
  lastIdx h := absurd rfl h
  maxScore := rfl
  maxScorePos h := absurd h (lt_irrefl 0)
  prevH0 := rfl
  prevClass := rfl
  inGap := .inl rfl

/-- **The two scans.** If the window holds the pattern, the scan of the text
notes what that of the window does. -/
theorem carried_window {minIdx maxIdx : ℕ} (hne : pattern ≠ []) (hascii : isAscii pattern = true)
    (hw : Window text pattern minIdx maxIdx)
    (hF : (scanWindow u caseSensitive pattern text minIdx maxIdx).F.length = pattern.length) :
    Carried minIdx (scanWindow u caseSensitive pattern text minIdx maxIdx)
      (scanWindow u caseSensitive pattern text 0 text.length) := by
  have hpos := List.length_pos_iff.mpr hne
  have hchar : ∀ {k c : ℕ}, IsChar pattern k (readChar u caseSensitive c) →
      ∃ q, pattern[k]? = some q ∧ Skips q c := fun {k c} h => by
    have hq := (isChar_readChar u).mp h
    exact ⟨_, hq, skips_of_takes (mem_isAscii hascii _ (List.mem_of_getElem? hq)) rfl⟩
  have hfront : ∀ c ∈ text.take minIdx, ¬ IsChar pattern 0 (readChar u caseSensitive c) := by
    intro c hc h
    obtain ⟨q, hq, hskips⟩ := hchar h
    exact hw.front q (by rwa [List.head?_eq_getElem?]) c hc hskips
  have hback : ∀ c ∈ text.drop maxIdx,
      ¬ IsChar pattern (pattern.length - 1) (readChar u caseSensitive c) := by
    intro c hc h
    obtain ⟨q, hq, hskips⟩ := hchar h
    exact hw.back q (by rwa [List.getLast?_eq_getElem?]) c hc hskips
  have hle := hw.le.trans hw.le_length
  obtain ⟨st, hrun, hm⟩ := moved_front (substring text minIdx maxIdx ++ text.drop maxIdx) _
    (moved_self .white) hfront
  rw [← split_window text hw.le] at hrun
  rw [List.length_take_of_le hle, Nat.zero_add, classBefore_eq u text hle] at hm
  have hwhole : scanWindow u caseSensitive pattern text 0 text.length =
      st.run u caseSensitive pattern (substring text minIdx maxIdx ++ text.drop maxIdx) := by
    rw [← hrun, scanWindow, substring, List.drop_zero, Nat.sub_zero, List.take_length]
    rfl
  have hmoved : Moved minIdx (scanWindow u caseSensitive pattern text minIdx maxIdx)
      (st.run u caseSensitive pattern (substring text minIdx maxIdx)) := hm.run _
  have hgrown : Grown (st.run u caseSensitive pattern (substring text minIdx maxIdx))
      (st.run u caseSensitive pattern (substring text minIdx maxIdx ++ text.drop maxIdx)) :=
    grown_append _ hback _ (by rw [hmoved.F, List.length_map, hF])
  rw [hwhole]
  have hfound : (scanWindow u caseSensitive pattern text minIdx maxIdx).F ≠ [] :=
    List.length_pos_iff.mp (by omega)
  exact
    { T := fun j x => item_behind hmoved.T hgrown.T
      B := fun j x => item_behind hmoved.B hgrown.B
      H0 := fun j x => item_behind hmoved.H0 hgrown.H0
      C0 := fun j x => item_behind hmoved.C0 hgrown.C0
      F := hgrown.F.trans hmoved.F
      lastIdx := hgrown.lastIdx.trans (hmoved.lastIdx hfound)
      maxScore := hgrown.maxScore.trans hmoved.maxScore
      maxScorePos := fun h => hgrown.maxScorePos.trans (hmoved.maxScorePos h) }

end

/-! ### The same matrix -/

section

variable {pattern : JsString} {st st' : Scan} {f0 width a : ℤ} {m m' : Matrix} {i : ℕ} {f j : ℤ}

/-- The same cells, and the best of them so many columns further on. -/
structure SameMatrix (a : ℤ) (m m' : Matrix) : Prop where
  H : m'.H = m.H
  C : m'.C = m.C
  inGap : m'.inGap = m.inGap
  maxScore : m'.maxScore = m.maxScore
  maxScorePos : 0 < m.maxScore → m'.maxScorePos = m.maxScorePos + a

theorem add_sub_add (j a f0 : ℤ) : j + a - (f0 + a) = j - f0 := by omega

theorem Carried.matchScore (hc : Carried a st st') {d before s2 : ℤ} {r : ℤ × ℤ}
    (h : matchScore st d before s2 j = some r) : matchScore st' d before s2 (j + a) = some r := by
  unfold Fuzzy.matchScore at h ⊢
  simp only [Option.bind_eq_bind, Option.bind_eq_some_iff] at h ⊢
  obtain ⟨bonus, hbonus, h⟩ := h
  refine ⟨bonus, hc.B j bonus hbonus, ?_⟩
  by_cases hrun : 1 < before + 1
  · rw [if_pos hrun] at h ⊢
    obtain ⟨fb, hfb, h⟩ := Option.bind_eq_some_iff.mp h
    refine Option.bind_eq_some_iff.mpr ⟨fb, ?_, h⟩
    rw [← hc.B _ fb hfb]
    congr 1
    omega
  · rw [if_neg hrun] at h ⊢
    exact h

theorem SameMatrix.write (hm : SameMatrix a m m') (s1 s2 c : ℤ) :
    SameMatrix a (m.write pattern f0 width i j s1 s2 c)
      (m'.write pattern (f0 + a) width i (j + a) s1 s2 c) where
  H := by
    show Function.update _ _ _ = Function.update _ _ _
    rw [hm.H, add_sub_add]
  C := by
    show Function.update _ _ _ = Function.update _ _ _
    rw [hm.C, add_sub_add]
  inGap := rfl
  maxScore := by
    show (if _ then _ else _) = (if _ then _ else _ : ℤ)
    rw [hm.maxScore]
  maxScorePos hpos := by
    show (if _ then _ else _) = (if _ then _ else _ : ℤ) + a
    rw [hm.maxScore]
    by_cases hbest : i + 1 = pattern.length ∧ m.maxScore < max (max s1 s2) 0
    · rw [if_pos hbest, if_pos hbest]
    · rw [if_neg hbest, if_neg hbest]
      refine hm.maxScorePos ?_
      rwa [show (m.write pattern f0 width i j s1 s2 c).maxScore = m.maxScore from if_neg hbest] at hpos

/-- A turn of both. -/
theorem Carried.fillCell (hc : Carried a st st') (hm : SameMatrix a m m') {q : ℕ} {n : Matrix}
    (h : fillCell pattern st f0 width i f q m j = some n) :
    ∃ n', fillCell pattern st' (f0 + a) width i (f + a) q m' (j + a) = some n' ∧
      SameMatrix a n n' := by
  unfold Fuzzy.fillCell at h ⊢
  simp only [Option.bind_eq_bind, Option.bind_eq_some_iff] at h ⊢
  obtain ⟨char, hchar, s2, hs2, ⟨s1, c⟩, hs1, h⟩ := h
  obtain rfl := Option.some.inj h
  refine ⟨_, ⟨char, hc.T j char hchar, s2, ?_, ⟨s1, c⟩, ?_, rfl⟩, hm.write s1 s2 c⟩
  · rw [← hs2, fromLeft, fromLeft, hm.H, hm.inGap, add_sub_add]
    congr 1
    exact propext ⟨fun h => by omega, fun h => by omega⟩
  · unfold fromDiagonal at hs1 ⊢
    rw [hm.H, hm.C, add_sub_add]
    by_cases hhit : [q] = char
    · rw [if_pos hhit] at hs1 ⊢
      simp only [Option.bind_eq_bind, Option.bind_eq_some_iff] at hs1 ⊢
      obtain ⟨d, hd, before, hbefore, hs1⟩ := hs1
      exact ⟨d, hd, before, hbefore, hc.matchScore hs1⟩
    · rw [if_neg hhit] at hs1 ⊢
      exact hs1

theorem Carried.fillRow (hc : Carried a st st') {q : ℕ} : ∀ (k : ℕ) {j : ℤ} {m m' n : Matrix},
    SameMatrix a m m' → fillRow pattern st f0 width i f q k j m = some n →
    ∃ n', fillRow pattern st' (f0 + a) width i (f + a) q k (j + a) m' = some n' ∧
      SameMatrix a n n'
  | 0, _, m, m', n, hm, h => by
    obtain rfl := Option.some.inj h
    exact ⟨m', rfl, hm⟩
  | k + 1, j, m, m', n, hm, h => by
    rw [Fuzzy.fillRow] at h ⊢
    obtain ⟨n1, hcell, hrow⟩ := Option.bind_eq_some_iff.mp h
    obtain ⟨n1', hcell', hn1⟩ := hc.fillCell hm hcell
    obtain ⟨n', hrow', hn⟩ := hc.fillRow k hn1 hrow
    refine ⟨n', Option.bind_eq_some_iff.mpr ⟨n1', hcell', ?_⟩, hn⟩
    rwa [show j + a + 1 = j + 1 + a by omega]

theorem Carried.getElem_F (hc : Carried a st st') (h : st.F[i]? = some f) :
    st'.F[i]? = some (f + a) := by
  rw [hc.F, List.getElem?_map, h]
  rfl

theorem Carried.fillRows (hc : Carried a st st') : ∀ (k : ℕ) {i : ℕ} {m m' n : Matrix},
    SameMatrix a m m' → fillRows pattern st f0 width k i m = some n →
    ∃ n', fillRows pattern st' (f0 + a) width k i m' = some n' ∧ SameMatrix a n n'
  | 0, _, m, m', n, hm, h => by
    obtain rfl := Option.some.inj h
    exact ⟨m', rfl, hm⟩
  | k + 1, i, m, m', n, hm, h => by
    rw [Fuzzy.fillRows] at h ⊢
    simp only [Option.bind_eq_bind, Option.bind_eq_some_iff] at h ⊢
    obtain ⟨f, hf, q, hq, n1, hrow, hrest⟩ := h
    have hstart : SameMatrix a { m with inGap := false } { m' with inGap := false } :=
      ⟨hm.H, hm.C, rfl, hm.maxScore, hm.maxScorePos⟩
    obtain ⟨n1', hrow', hn1⟩ := hc.fillRow _ hstart hrow
    obtain ⟨n', hrest', hn⟩ := hc.fillRows k hn1 hrest
    refine ⟨n', ⟨f + a, hc.getElem_F hf, q, hq, n1', ?_, hrest'⟩, hn⟩
    rw [hc.lastIdx, show st.lastIdx + a - (f + a) + 1 = st.lastIdx - f + 1 by omega]
    exact hrow'

theorem Carried.firstRow (hc : Carried a st st') (hr : Ready pattern st f0 width) :
    SameMatrix a (firstRow st f0 width) (firstRow st' (f0 + a) width) := by
  have hsame : ∀ {l l' : List ℤ}, (∀ j x, item l j = some x → item l' (j + a) = some x) →
      (∀ j, f0 ≤ j → j ≤ st.lastIdx → ∃ x, item l j = some x) →
      (fun k => if 0 ≤ k ∧ k < width then item l' (f0 + a + k) else none) =
        fun k => if 0 ≤ k ∧ k < width then item l (f0 + k) else none := by
    intro l l' hl hthere
    funext k
    by_cases hk : 0 ≤ k ∧ k < width
    · have := hr.width_eq
      obtain ⟨x, hx⟩ := hthere (f0 + k) (by omega) (by omega)
      rw [if_pos hk, if_pos hk, hx, ← hl _ x hx]
      congr 1
      omega
    · rw [if_neg hk, if_neg hk]
  refine ⟨hsame hc.H0 fun j hj hj' => ?_, hsame hc.C0 fun j hj hj' => ?_, rfl, hc.maxScore,
    hc.maxScorePos⟩
  · obtain ⟨_, _, h, _, _, _, _, hh, _⟩ := hr.cells j hj hj'
    exact ⟨h, hh⟩
  · obtain ⟨_, _, _, c, _, _, _, _, _, hc', _⟩ := hr.cells j hj hj'
    exact ⟨c, hc'⟩

/-- The matrix of both. -/
theorem Carried.fillMatrix (hc : Carried a st st') (hr : Ready pattern st f0 width)
    (h : fillMatrix pattern st f0 width = some m) :
    ∃ m', fillMatrix pattern st' (f0 + a) width = some m' ∧ SameMatrix a m m' :=
  hc.fillRows _ (hc.firstRow hr) h

/-- The way back of both. -/
theorem Carried.backtrace (hc : Carried a st st') (hm : SameMatrix a m m') {minIdx minIdx' : ℕ}
    (ha : (minIdx : ℤ) = minIdx' + a) {way : List ℤ} :
    ∀ (fuel : ℕ) {i : ℕ} {j : ℤ} {preferMatch : Bool} {positions : List ℤ},
    backtrace pattern st f0 width m minIdx fuel i j preferMatch positions = some way →
      backtrace pattern st' (f0 + a) width m' minIdx' fuel i (j + a) preferMatch positions = some way
  | 0, _, _, _, _, h => by cases h
  | fuel + 1, i, j, preferMatch, positions, h => by
    have hprefer : ∀ c, preferNext pattern (f0 + a) width m' i (j + a) c =
        preferNext pattern f0 width m i j c := fun c => by
      rw [preferNext, preferNext, hm.C, add_sub_add]
    have hposition : j + a + minIdx' = j + minIdx := by omega
    rw [Fuzzy.backtrace] at h ⊢
    simp only [Option.bind_eq_bind, Option.bind_eq_some_iff, hm.H, hm.C, add_sub_add, hprefer,
      hposition, show j + a - 1 = j - 1 + a by omega] at h ⊢
    obtain ⟨f, hf, s, hs, s1, hs1, s2, hs2, h⟩ := h
    refine ⟨f + a, hc.getElem_F hf, s, hs, s1, ?_, s2, ?_, ?_⟩
    · simpa only [add_le_add_iff_right] using hs1
    · simpa only [add_lt_add_iff_right] using hs2
    · by_cases hmatch : IsMatch s s1 s2 preferMatch
      · rw [if_pos hmatch] at h ⊢
        by_cases hzero : i = 0
        · rwa [if_pos hzero] at h ⊢
        · rw [if_neg hzero] at h ⊢
          obtain ⟨c, hc', h⟩ := Option.bind_eq_some_iff.mp h
          exact Option.bind_eq_some_iff.mpr ⟨c, hc', hc.backtrace hm ha fuel h⟩
      · rw [if_neg hmatch] at h ⊢
        obtain ⟨c, hc', h⟩ := Option.bind_eq_some_iff.mp h
        exact Option.bind_eq_some_iff.mpr ⟨c, hc', hc.backtrace hm ha fuel h⟩

end

/-! ### The same result -/

section

variable {u : Unicode} {caseSensitive : Bool} {text pattern : JsString}

theorem substring_whole (text : JsString) : substring text 0 text.length = text := by
  rw [substring, List.drop_zero, Nat.sub_zero, List.take_length]

/-- A run on the window and one on the text. -/
theorem matchWindow_eq_whole {minIdx maxIdx : ℕ} (hne : pattern ≠ [])
    (hascii : isAscii pattern = true) (hw : Window text pattern minIdx maxIdx) (withPos : Bool)
    {fuel : ℕ} (hfuel : text.length ≤ fuel)
    (hF : (scanWindow u caseSensitive pattern text minIdx maxIdx).F.length = pattern.length) :
    matchWindow u text pattern withPos caseSensitive fuel minIdx maxIdx =
      matchWindow u text pattern withPos caseSensitive fuel 0 text.length := by
  have hc : Carried minIdx (scanWindow u caseSensitive pattern text minIdx maxIdx)
      (scanWindow u caseSensitive pattern text 0 text.length) := carried_window hne hascii hw hF
  obtain ⟨done, rest, hwindow, hs, _⟩ := scanned_scanWindow u caseSensitive pattern text
    minIdx maxIdx
  have hlen := length_le_of_window hwindow
  unfold matchWindow
  dsimp only
  generalize scanWindow u caseSensitive pattern text minIdx maxIdx = st at *
  generalize scanWindow u caseSensitive pattern text 0 text.length = st' at *
  have hF' : st'.F.length = pattern.length := by rw [hc.F, List.length_map, hF]
  rw [if_neg (not_not.mpr hF), if_neg (not_not.mpr hF')]
  by_cases hone : pattern.length = 1
  · rw [if_pos hone, if_pos hone, hc.maxScore,
      hc.maxScorePos (hs.single hone (List.length_pos_iff.mp (by omega))).1]
    have hpos : ((0 : ℕ) : ℤ) + (st.maxScorePos + minIdx) = minIdx + st.maxScorePos := by omega
    rw [hpos]
  · rw [if_neg hone, if_neg hone]
    have hmany : 2 ≤ pattern.length := by
      have := List.length_pos_iff.mpr hne
      omega
    obtain ⟨f0, m, way, hfirst, hfill, hpositive, _, _, hback⟩ := hs.way hF hmany minIdx
    obtain ⟨m', hfill', hm⟩ := hc.fillMatrix (hs.ready hF hmany hfirst) hfill
    have hwidth : st'.lastIdx - (f0 + minIdx) + 1 = st.lastIdx - f0 + 1 := by
      rw [hc.lastIdx]
      omega
    have hpos := hm.maxScorePos hpositive
    have hback' := hc.backtrace hm (show (minIdx : ℤ) = (0 : ℕ) + minIdx by omega) fuel
      (hback fuel (hlen.trans hfuel))
    have hstart : ((0 : ℕ) : ℤ) + (f0 + minIdx) = minIdx + f0 := by omega
    have hstop : ((0 : ℕ) : ℤ) + (m.maxScorePos + minIdx) = minIdx + m.maxScorePos := by omega
    simp only [hfirst, hc.getElem_F hfirst, hwidth, hfill, hfill', Option.bind_eq_bind,
      Option.bind_some, hback fuel (hlen.trans hfuel), hpos, hback', hm.maxScore, hstart, hstop]

/-- **The window is only an optimisation.** For every pattern in ASCII and every
text the search has the result of one that takes the whole text for its window. -/
theorem fuzzyMatchV2_eq_whole (u : Unicode) (caseSensitive withPos : Bool) (text : JsString)
    (hne : pattern ≠ []) (hascii : isAscii pattern = true) (fuel : ℕ) (hfuel : text.length ≤ fuel) :
    fuzzyMatchV2 u text pattern withPos caseSensitive fuel =
      matchWindow u text pattern withPos caseSensitive fuel 0 text.length := by
  obtain ⟨out, hout, hiff, _⟩ := fuzzyMatchV2_spec u caseSensitive text hne withPos
  obtain ⟨whole, hwhole, hresult⟩ := matchWindow_spec u caseSensitive text hne 0 text.length withPos
  have hiff' := hresult.isSome_iff
  rw [substring_whole] at hiff'
  by_cases hleft : leftOver (Takes caseSensitive) pattern text = []
  · have hshort : ¬ text.length < pattern.length := (length_le_of_leftOver hleft).not_gt
    rcases window_spec text hne hascii with ⟨_, hnot⟩ | ⟨minIdx, maxIdx, hsome, hw⟩
    · exact absurd (leftOver_skips_of_takes hascii hleft) hnot
    · rw [fuzzyMatchV2, if_neg fun h => hne (List.eq_nil_of_length_eq_zero h), if_neg hshort, hsome]
      refine matchWindow_eq_whole hne hascii hw withPos hfuel ?_
      rw [scanWindow_complete_iff, leftOver_window hne hascii hw]
      exact hleft
  · have hnone : out = none := Option.not_isSome_iff_eq_none.mp fun h => hleft (hiff.mp h).2
    have hnone' : whole = none := Option.not_isSome_iff_eq_none.mp fun h => hleft (hiff'.mp h)
    rw [hout fuel hfuel, hwhole fuel hfuel, hnone, hnone']

end

theorem fuzzyMatchV2_eq_whole_barbaz :
    fuzzyMatchV2 latin ("fooBarbaz1".toList.map Char.toNat) ("obz".toList.map Char.toNat) true false
        10 =
      matchWindow latin ("fooBarbaz1".toList.map Char.toNat) ("obz".toList.map Char.toNat) true false
        10 0 10 :=
  fuzzyMatchV2_eq_whole latin false true _ (by decide) (by decide) 10 (by decide)

end Fuzzy
end Gitdot
