/-
# Fuzzy search: the window, and what is found

`asciiFuzzyIndex` looks for the characters of the pattern in either case
(`trySkip_eq`), so in front of its window nothing is the first character and
behind it nothing the last one (`window_spec`): the scan of the window finds
the pattern exactly if that of the text does (`leftOver_window`).

A pattern that is not ASCII is never found, and a character of the target
outside ASCII is compared as it stands. So what `fuzzyMatch` says of a query
that is a subsequence depends on that (`fuzzyMatch_accepts_iff`). What it finds
is a real match (`fuzzyMatch_positions`), though its start need not be the
first position.

Key definitions: `Window`, `lowered`, `IsSubsequence`, `IsAsciiSubsequence`,
`IsRealMatch`, `latin`.
Key theorems: `trySkip_eq`, `window_spec`, `fuzzyMatchV2_spec`,
`fuzzyMatch_accepts_iff`, `not_fuzzyMatch_accepts`, `fuzzyMatch_positions`.
-/
import Gitdot.Web.FuzzyMatrix

namespace Gitdot
namespace Fuzzy

open Lib

/-! ### The search for the window -/

section

variable {text pattern : JsString}

/-- The search takes a character in either case. -/
abbrev Skips (q c : ℕ) : Prop := c = asciiLower q ∨ c = asciiUpper (asciiLower q)

/-- The first that either test takes. -/
theorem findIdx?_or {α : Type} (p q : α → Bool) : ∀ l : List α,
    l.findIdx? (fun x => p x || q x) =
      match l.findIdx? p with
      | some k => (l.take k).findIdx? q |>.or (some k)
      | none => l.findIdx? q
  | [] => rfl
  | x :: l => by
    have ih := findIdx?_or p q l
    rw [List.findIdx?_cons, List.findIdx?_cons, List.findIdx?_cons]
    by_cases hp : p x = true
    · simp [hp]
    · by_cases hq : q x = true
      · cases hfind : l.findIdx? p <;> simp [hp, hq, List.findIdx?_cons]
      · rw [ih]
        cases hfind : l.findIdx? p with
        | none => simp [hp, hq]
        | some k =>
          simp only [hp, hq, Bool.or_self, Bool.false_eq_true, if_false, Option.map_some,
            List.take_succ_cons, List.findIdx?_cons]
          cases (l.take k).findIdx? q <;> rfl

theorem indexOfUpper_eq (searchText : JsString) (b : ℕ) : indexOfUpper searchText b =
    if b ≠ asciiUpper b then searchText.findIdx? (· == asciiUpper b) else none := by
  rw [indexOfUpper, indexOf, List.drop_zero]
  cases searchText.findIdx? (· == asciiUpper b) <;> simp

theorem findIdx?_take_eq_none {α : Type} {p : α → Bool} {l : List α} {k : ℕ}
    (h : l.findIdx? p = some k) : (l.take k).findIdx? p = none := by
  obtain ⟨_, _, hbefore⟩ := List.findIdx?_eq_some_iff_getElem.mp h
  refine List.findIdx?_eq_none_iff.mpr fun x hx => ?_
  obtain ⟨i, hi, rfl⟩ := List.getElem_of_mem hx
  rw [List.getElem_take]
  rw [List.length_take] at hi
  exact Bool.eq_false_iff.mpr (hbefore i (by omega))

/-- `trySkip` finds the first place of the character in either case. -/
theorem trySkip_eq (text : JsString) (b start : ℕ) :
    trySkip text b start =
      ((text.drop start).findIdx? fun c => c == b || c == asciiUpper b).map (start + ·) := by
  rw [findIdx?_or]
  unfold trySkip indexOf
  cases hfind : (text.drop start).findIdx? (· == b) with
  | none =>
    simp only [Option.map_none, indexOfUpper_eq]
    rw [if_neg (by simp)]
    by_cases hsame : b = asciiUpper b
    · rw [if_neg (not_not.mpr hsame), ← hsame, hfind]
      rfl
    · rw [if_pos hsame]
      cases (text.drop start).findIdx? (· == asciiUpper b) <;> rfl
  | some k =>
    simp only [Option.map_some]
    rcases Nat.eq_zero_or_pos k with rfl | hk
    · rw [if_pos (by rw [Nat.add_zero])]
      simp
    · obtain ⟨n, rfl⟩ : ∃ n, k = n + 1 := ⟨k - 1, by omega⟩
      rw [if_neg (by simp)]
      have hsub : substring text start (start + n + 1) = (text.drop start).take (n + 1) := by
        rw [substring, show start + n + 1 - start = n + 1 by omega]
      rw [show start + (n + 1) = start + n + 1 by omega]
      dsimp only
      rw [hsub, indexOfUpper_eq]
      by_cases hsame : b = asciiUpper b
      · rw [if_neg (not_not.mpr hsame), ← hsame, findIdx?_take_eq_none hfind]
        rfl
      · rw [if_pos hsame]
        cases ((text.drop start).take (n + 1)).findIdx? (· == asciiUpper b) <;> rfl

/-- The first place, in terms of the list. -/
theorem trySkip_cases (text : JsString) (q start : ℕ) :
    (trySkip text (asciiLower q) start = none ∧ ∀ c ∈ text.drop start, ¬ Skips q c) ∨
      ∃ pre c post, text.drop start = pre ++ c :: post ∧ Skips q c ∧ (∀ d ∈ pre, ¬ Skips q d) ∧
        trySkip text (asciiLower q) start = some (start + pre.length) := by
  rw [trySkip_eq]
  cases hfind : (text.drop start).findIdx?
      fun c => c == asciiLower q || c == asciiUpper (asciiLower q) with
  | none =>
    refine .inl ⟨rfl, fun c hc => ?_⟩
    simpa [Skips] using List.findIdx?_eq_none_iff.mp hfind c hc
  | some k =>
    obtain ⟨hk, hhit, hbefore⟩ := List.findIdx?_eq_some_iff_getElem.mp hfind
    refine .inr ⟨(text.drop start).take k, (text.drop start)[k], (text.drop start).drop (k + 1),
      ?_, by simpa [Skips] using hhit, fun d hd => ?_, ?_⟩
    · rw [← List.drop_eq_getElem_cons hk, List.take_append_drop]
    · obtain ⟨i, hi, rfl⟩ := List.getElem_of_mem hd
      rw [List.getElem_take]
      rw [List.length_take] at hi
      simpa [Skips] using hbefore i (by omega)
    · rw [Option.map_some, List.length_take_of_le hk.le]

/-- The search has taken `c` behind these characters. -/
theorem leftOver_found (pattern : JsString) {q c start : ℕ} {pre post : JsString}
    (hsplit : text.drop start = pre ++ c :: post) (hc : Skips q c) (hpre : ∀ d ∈ pre, ¬ Skips q d) :
    leftOver Skips (q :: pattern) (text.drop start) =
        leftOver Skips pattern (text.drop (start + pre.length + 1)) ∧
      start + pre.length < text.length := by
  have hpost : text.drop (start + pre.length + 1) = post := by
    rw [show start + pre.length + 1 = start + (pre.length + 1) by omega, ← List.drop_drop, hsplit,
      show pre ++ c :: post = (pre ++ [c]) ++ post by simp]
    exact List.drop_left' (by simp)
  have hlen := congrArg List.length hsplit
  rw [List.length_drop, List.length_append, List.length_cons] at hlen
  rw [hpost, hsplit, leftOver_append, leftOver_skip pre hpre, leftOver_take hc]
  exact ⟨rfl, by omega⟩

/-- The loop behind the first character: it ends well exactly if nothing is
left, at a place of the last one. -/
theorem skipAll_rest (text : JsString) (firstIdx : ℕ) : ∀ (pattern : JsString) (idx lastIdx : ℕ),
    (skipAll text pattern false idx firstIdx lastIdx = none ∧
        leftOver Skips pattern (text.drop idx) ≠ []) ∨
      ∃ li, skipAll text pattern false idx firstIdx lastIdx = some (firstIdx, li) ∧
        leftOver Skips pattern (text.drop idx) = [] ∧
        (li = lastIdx ∨ idx ≤ li ∧ li < text.length)
  | [], idx, lastIdx => .inr ⟨lastIdx, rfl, leftOver_nil _, .inl rfl⟩
  | q :: pattern, idx, lastIdx => by
    rw [skipAll]
    rcases trySkip_cases text q idx with ⟨hskip, hnone⟩ | ⟨pre, c, post, hsplit, hc, hpre, hskip⟩
    · rw [hskip, leftOver_skip _ hnone]
      exact .inl ⟨rfl, List.cons_ne_nil q pattern⟩
    · obtain ⟨hleft, hlt⟩ := leftOver_found pattern hsplit hc hpre
      rw [hskip, hleft]
      simp only [Option.bind_eq_bind, Option.bind_some, Bool.false_eq_true, false_and, if_false]
      rcases skipAll_rest text firstIdx pattern (idx + pre.length + 1) (idx + pre.length) with
        h | ⟨li, hli, hnil, hor⟩
      · exact .inl h
      · exact .inr ⟨li, hli, hnil, .inr (by omega)⟩

/-- **The whole loop**: no place of the first character stands in front of the
window. -/
theorem skipAll_spec (text : JsString) (q : ℕ) (pattern : JsString) :
    (skipAll text (q :: pattern) true 0 0 0 = none ∧ leftOver Skips (q :: pattern) text ≠ []) ∨
      ∃ fi li, skipAll text (q :: pattern) true 0 0 0 = some (fi, li) ∧
        leftOver Skips (q :: pattern) text = [] ∧ fi ≤ li ∧ li < text.length ∧
        ∀ c ∈ text.take fi, ¬ Skips q c := by
  rw [skipAll]
  rcases trySkip_cases text q 0 with ⟨hskip, hnone⟩ | ⟨pre, c, post, hsplit, hc, hpre, hskip⟩
  · rw [List.drop_zero] at hnone
    rw [hskip, leftOver_skip _ hnone]
    exact .inl ⟨rfl, List.cons_ne_nil q pattern⟩
  · obtain ⟨hleft, hlt⟩ := leftOver_found pattern hsplit hc hpre
    rw [List.drop_zero] at hleft hsplit
    rw [hskip, hleft]
    simp only [Option.bind_eq_bind, Option.bind_some, true_and]
    rcases skipAll_rest text (if 0 < 0 + pre.length then 0 + pre.length - 1 else 0) pattern
      (0 + pre.length + 1) (0 + pre.length) with h | ⟨li, hli, hnil, hor⟩
    · exact .inl h
    · refine .inr ⟨_, li, hli, hnil, by split_ifs <;> omega, by omega, fun d hd => hpre d ?_⟩
      have hle : (if 0 < 0 + pre.length then 0 + pre.length - 1 else 0) ≤ pre.length := by
        split_ifs <;> omega
      rw [hsplit, List.take_append_of_le_length hle] at hd
      exact List.mem_of_mem_take hd

/-- The loop from the end of the scope: behind what it finds there is no place
of the character. -/
theorem lastAppearance_spec (scope : JsString) (b upperB : ℕ) : ∀ n : ℕ,
    match lastAppearance scope b upperB n with
    | some k => 0 < k ∧ k ≤ n ∧ ∀ i, k < i → i ≤ n → scope[i]? ≠ some b ∧ scope[i]? ≠ some upperB
    | none => ∀ i, 0 < i → i ≤ n → scope[i]? ≠ some b ∧ scope[i]? ≠ some upperB
  | 0 => fun i h h' => by omega
  | n + 1 => by
    have ih := lastAppearance_spec scope b upperB n
    rw [lastAppearance]
    by_cases hat : scope[n + 1]? = some b ∨ scope[n + 1]? = some upperB
    · rw [if_pos hat]
      exact ⟨by omega, le_rfl, fun i h h' => by omega⟩
    · rw [if_neg hat]
      have hnext : ∀ i, ¬ i ≤ n → i ≤ n + 1 → scope[i]? ≠ some b ∧ scope[i]? ≠ some upperB := by
        intro i hi hi'
        obtain rfl : i = n + 1 := by omega
        exact not_or.mp hat
      cases hfind : lastAppearance scope b upperB n with
      | none =>
        rw [hfind] at ih
        intro i h0 hi
        by_cases hle : i ≤ n
        · exact ih i h0 hle
        · exact hnext i hle hi
      | some k =>
        rw [hfind] at ih
        refine ⟨ih.1, by omega, fun i hk hi => ?_⟩
        by_cases hle : i ≤ n
        · exact ih.2.2 i hk hle
        · exact hnext i hle hi

/-- What the window leaves out. -/
structure Window (text pattern : JsString) (minIdx maxIdx : ℕ) : Prop where
  le : minIdx ≤ maxIdx
  le_length : maxIdx ≤ text.length
  front : ∀ q ∈ pattern.head?, ∀ c ∈ text.take minIdx, ¬ Skips q c
  back : ∀ q ∈ pattern.getLast?, ∀ c ∈ text.drop maxIdx, ¬ Skips q c

/-- Where nothing in the scope from there on is the last character. -/
theorem not_skips_drop {last li k : ℕ}
    (h : ∀ i, k < i → i ≤ (text.drop li).length - 1 →
      (text.drop li)[i]? ≠ some (asciiLower last) ∧
        (text.drop li)[i]? ≠ some (asciiUpper (asciiLower last))) :
    ∀ c ∈ text.drop (li + k + 1), ¬ Skips last c := by
  intro c hc hskips
  obtain ⟨i, hi, rfl⟩ := List.getElem_of_mem hc
  rw [List.length_drop] at hi
  have hget : (text.drop li)[k + 1 + i]? = some (text.drop (li + k + 1))[i] := by
    rw [List.getElem?_drop, List.getElem_drop, show li + (k + 1 + i) = li + k + 1 + i by omega]
    exact List.getElem?_eq_getElem (by omega)
  have hno := h (k + 1 + i) (by omega) (by rw [List.length_drop]; omega)
  rw [hget] at hno
  rcases hskips with heq | heq
  · exact hno.1 (congrArg some heq)
  · exact hno.2 (congrArg some heq)

/-- **The window.** -/
theorem window_spec (text : JsString) (hne : pattern ≠ []) (hascii : isAscii pattern = true) :
    (asciiFuzzyIndex text pattern = none ∧ leftOver Skips pattern text ≠ []) ∨
      ∃ minIdx maxIdx, asciiFuzzyIndex text pattern = some (minIdx, maxIdx) ∧
        Window text pattern minIdx maxIdx := by
  obtain ⟨q, pattern, rfl⟩ := List.exists_cons_of_ne_nil hne
  unfold asciiFuzzyIndex
  rw [if_neg (by rw [hascii]; decide)]
  rcases skipAll_spec text q pattern with ⟨hskip, hleft⟩ | ⟨fi, li, hskip, _, hle, hlt, hfront⟩
  · rw [hskip]
    exact .inl ⟨rfl, hleft⟩
  · obtain ⟨last, hlast⟩ : ∃ last, (q :: pattern).getLast? = some last :=
      ⟨_, List.getLast?_eq_some_getLast hne⟩
    simp only [hskip, hlast, Option.bind_eq_bind, Option.bind_some]
    have hspec := lastAppearance_spec (text.drop li) (asciiLower last) (asciiUpper (asciiLower last))
      ((text.drop li).length - 1)
    have hfirst : ∀ p ∈ (q :: pattern).head?, ∀ c ∈ text.take fi, ¬ Skips p c := by
      intro p hp
      obtain rfl : q = p := Option.some.inj hp
      exact hfront
    refine .inr ?_
    cases hfind : lastAppearance (text.drop li) (asciiLower last) (asciiUpper (asciiLower last))
        ((text.drop li).length - 1) with
    | none =>
      rw [hfind] at hspec
      refine ⟨fi, li + 1, rfl, by omega, by omega, hfirst, fun p hp => ?_⟩
      obtain rfl : last = p := Option.some.inj (hlast.symm.trans hp)
      exact not_skips_drop (k := 0) hspec
    | some k =>
      rw [hfind] at hspec
      obtain ⟨h0, hk, hback⟩ := hspec
      rw [List.length_drop] at hk
      refine ⟨fi, li + k + 1, rfl, by omega, by omega, hfirst, fun p hp => ?_⟩
      obtain rfl : last = p := Option.some.inj (hlast.symm.trans hp)
      exact not_skips_drop hback

/-- What takes a character of the text is found in either case. -/
theorem skips_of_takes {caseSensitive : Bool} {q c : ℕ} (hq : q < 128)
    (h : Takes caseSensitive q c) : Skips q c := by
  unfold Takes fold at h
  unfold Skips asciiUpper asciiLower isUpper isLower at *
  cases caseSensitive <;> simp only [decide_eq_true_eq, Bool.false_eq_true, if_true, if_false] at * <;>
    split_ifs at * <;> omega

theorem mem_isAscii (h : isAscii pattern = true) : ∀ q ∈ pattern, q < 128 := fun q hq =>
  of_decide_eq_true (List.all_eq_true.mp h q hq)

theorem leftOver_skips_of_takes {caseSensitive : Bool} (hascii : isAscii pattern = true)
    (h : leftOver (Takes caseSensitive) pattern text = []) : leftOver Skips pattern text = [] :=
  leftOver_imp h fun q hq _ _ => skips_of_takes (mem_isAscii hascii q hq)

theorem split_window (text : JsString) {minIdx maxIdx : ℕ} (hle : minIdx ≤ maxIdx) :
    text = text.take minIdx ++ (substring text minIdx maxIdx ++ text.drop maxIdx) := by
  have hback : text.drop maxIdx = (text.drop minIdx).drop (maxIdx - minIdx) := by
    rw [List.drop_drop, Nat.add_sub_of_le hle]
  rw [hback, substring, List.take_append_drop, List.take_append_drop]

/-- **The search in the window.** Nothing is left in it exactly if nothing is
left in the text. -/
theorem leftOver_window {caseSensitive : Bool} {minIdx maxIdx : ℕ} (hne : pattern ≠ [])
    (hascii : isAscii pattern = true) (hw : Window text pattern minIdx maxIdx) :
    leftOver (Takes caseSensitive) pattern (substring text minIdx maxIdx) = [] ↔
      leftOver (Takes caseSensitive) pattern text = [] := by
  have hfront : leftOver (Takes caseSensitive) pattern (text.take minIdx) = pattern := by
    obtain ⟨q, ps, rfl⟩ := List.exists_cons_of_ne_nil hne
    exact leftOver_skip _ fun c hc htakes => hw.front q rfl c hc
      (skips_of_takes (mem_isAscii hascii q List.mem_cons_self) htakes)
  conv_rhs => rw [split_window text hw.le, leftOver_append, hfront, leftOver_append]
  refine ⟨fun h => by rw [h, leftOver_nil], fun h => ?_⟩
  by_contra hleft
  obtain ⟨front, hsuffix⟩ :=
    leftOver_suffix (R := Takes caseSensitive) pattern (substring text minIdx maxIdx)
  obtain ⟨last, hlast⟩ : ∃ last, (leftOver (Takes caseSensitive) pattern
      (substring text minIdx maxIdx)).getLast? = some last :=
    ⟨_, List.getLast?_eq_some_getLast hleft⟩
  have hpattern : pattern.getLast? = some last := by
    rw [← hsuffix, List.getLast?_append_of_ne_nil _ hleft]
    exact hlast
  have hmem := mem_isAscii hascii _ (List.mem_of_getLast? hpattern)
  exact leftOver_ne_nil _ _ hlast
    (fun c hc htakes => hw.back _ hpattern c hc (skips_of_takes hmem htakes)) h

/-- **The search in a text.** It ends, with enough turns for the way back, and
finds an ASCII pattern exactly if it embeds in the text. -/
theorem fuzzyMatchV2_spec (u : Unicode) (caseSensitive : Bool) (text : JsString) (hne : pattern ≠ [])
    (withPos : Bool) :
    ∃ out, (∀ fuel, text.length ≤ fuel →
        fuzzyMatchV2 u text pattern withPos caseSensitive fuel = some out) ∧
      (out.isSome ↔ isAscii pattern = true ∧ leftOver (Takes caseSensitive) pattern text = []) ∧
      ∀ r, out = some r → ∃ minIdx maxIdx, asciiFuzzyIndex text pattern = some (minIdx, maxIdx) ∧
        WindowResult u caseSensitive text pattern minIdx maxIdx withPos out := by
  have hlength : pattern.length ≠ 0 := fun h => hne (List.eq_nil_of_length_eq_zero h)
  by_cases hlong : text.length < pattern.length
  · refine ⟨none, fun fuel _ => ?_,
      iff_of_false nofun fun h => hlong.not_ge (length_le_of_leftOver h.2), fun r hr => by cases hr⟩
    rw [fuzzyMatchV2, if_neg hlength, if_pos hlong]
  · by_cases hascii : isAscii pattern = true
    · rcases window_spec text hne hascii with ⟨hnone, hleft⟩ | ⟨minIdx, maxIdx, hsome, hw⟩
      · refine ⟨none, fun fuel _ => ?_,
          iff_of_false nofun fun h => hleft (leftOver_skips_of_takes hascii h.2),
          fun r hr => by cases hr⟩
        rw [fuzzyMatchV2, if_neg hlength, if_neg hlong, hnone]
      · obtain ⟨out, hout, hresult⟩ := matchWindow_spec u caseSensitive text hne minIdx maxIdx withPos
        refine ⟨out, fun fuel hfuel => ?_, ?_, fun r _ => ⟨minIdx, maxIdx, hsome, hresult⟩⟩
        · rw [fuzzyMatchV2, if_neg hlength, if_neg hlong, hsome]
          exact hout fuel hfuel
        · rw [hresult.isSome_iff, leftOver_window hne hascii hw, and_iff_right hascii]
    · refine ⟨none, fun fuel _ => ?_, iff_of_false nofun fun h => hascii h.1, fun r hr => by cases hr⟩
      have hnone : asciiFuzzyIndex text pattern = none := by
        rw [asciiFuzzyIndex, if_pos (Bool.eq_false_iff.mpr hascii)]
        rfl
      rw [fuzzyMatchV2, if_neg hlength, if_neg hlong, hnone]

end

/-! ### Which queries are found -/

section

variable {u : Unicode} {caseSensitive : Bool} {query target pattern text : JsString}

/-- The string that counts, in lower case unless the search is case sensitive. -/
def lowered (u : Unicode) (caseSensitive : Bool) (s : JsString) : JsString :=
  if caseSensitive then s else u.toLowerCase s

/-- The query is a subsequence of the target. -/
def IsSubsequence (u : Unicode) (caseSensitive : Bool) (query target : JsString) : Prop :=
  (lowered u caseSensitive query).Sublist (lowered u caseSensitive target)

/-- The query is ASCII and a subsequence of the target with only the letters
`A` to `Z` in lower case. -/
def IsAsciiSubsequence (u : Unicode) (caseSensitive : Bool) (query target : JsString) : Prop :=
  isAscii (lowered u caseSensitive query) = true ∧
    (lowered u caseSensitive query).Sublist (target.map (fold caseSensitive))

theorem LowersTo.ne_nil {c : ℕ} {piece : JsString} (h : LowersTo c piece) : piece ≠ [] := by
  unfold LowersTo at h
  split_ifs at h
  · rw [h]
    exact List.cons_ne_nil _ _
  · rw [h]
    exact List.cons_ne_nil _ _
  · rw [h]
    exact List.cons_ne_nil _ _
  · exact h.1

theorem lowered_ne_nil (u : Unicode) (caseSensitive : Bool) {s : JsString} (hs : s ≠ []) :
    lowered u caseSensitive s ≠ [] := by
  unfold lowered
  cases caseSensitive with
  | true => exact hs
  | false =>
    obtain ⟨pieces, hpieces, hlower⟩ := u.lowers s
    rw [if_neg Bool.false_ne_true, hlower]
    cases hpieces with
    | nil => exact absurd rfl hs
    | cons hpiece _ =>
      rw [List.flatten_cons]
      exact fun h => hpiece.ne_nil (List.append_eq_nil_iff.mp h).1

theorem lowered_nil (u : Unicode) (caseSensitive : Bool) : lowered u caseSensitive [] = [] := by
  unfold lowered
  cases caseSensitive with
  | true => rfl
  | false =>
    obtain ⟨pieces, hpieces, hlower⟩ := u.lowers []
    cases hpieces
    exact hlower

/-- The scan finds the characters of a subsequence. -/
theorem leftOver_takes_iff : leftOver (Takes caseSensitive) pattern text = [] ↔
    pattern.Sublist (text.map (fold caseSensitive)) := by
  rw [leftOver_eq_nil_iff, ← List.sublistForall₂_map_right_iff (R := fun q d => d = q),
    List.sublistForall₂_iff]
  constructor
  · rintro ⟨l, hl, hsub⟩
    have hsame : l = pattern := by
      rw [← List.forall₂_eq_eq_eq]
      exact hl.flip
    rwa [← hsame]
  · exact fun h => ⟨pattern, List.forall₂_same.mpr fun _ _ => rfl, h⟩

/-- What is ASCII in the target, in lower case. -/
theorem filter_sublist_flatten {s : JsString} {pieces : List JsString}
    (h : List.Forall₂ LowersTo s pieces) :
    ((s.map asciiLower).filter fun d => decide (d < 128)).Sublist pieces.flatten := by
  induction h with
  | nil => exact .slnil
  | @cons c piece s pieces hpiece _ ih =>
    rw [List.map_cons, List.flatten_cons]
    by_cases hc : asciiLower c < 128
    · have hascii : c < 128 := by
        unfold asciiLower isUpper at hc
        split_ifs at hc <;> omega
      rw [LowersTo, if_pos hascii] at hpiece
      rw [List.filter_cons_of_pos (by simpa using hc), hpiece]
      exact ih.cons_cons _
    · rw [List.filter_cons_of_neg (by simpa using hc)]
      exact ih.trans (List.sublist_append_right _ _)

theorem IsAsciiSubsequence.isSubsequence (h : IsAsciiSubsequence u caseSensitive query target) :
    IsSubsequence u caseSensitive query target := by
  obtain ⟨hascii, hsub⟩ := h
  unfold IsSubsequence
  cases caseSensitive with
  | true => rwa [show target.map (fold true) = target from List.map_id' target] at hsub
  | false =>
    obtain ⟨pieces, hpieces, hlower⟩ := u.lowers target
    have hself : (lowered u false query).filter (fun d => decide (d < 128)) = lowered u false query :=
      List.filter_eq_self.mpr fun d hd => decide_eq_true (mem_isAscii hascii d hd)
    rw [← hself, show lowered u false target = u.toLowerCase target from rfl, hlower]
    exact (hsub.filter _).trans (filter_sublist_flatten hpieces)

/-- A search ends, and finds what is an ASCII subsequence. -/
theorem fuzzyMatch_spec (u : Unicode) (caseSensitive withPos : Bool) (query target : JsString) :
    ∃ out, (∀ fuel, target.length ≤ fuel →
        fuzzyMatch u query target withPos caseSensitive fuel = some out) ∧
      (out.isSome ↔ query = [] ∨ IsAsciiSubsequence u caseSensitive query target) ∧
      (query ≠ [] → ∀ r, out = some r → ∃ minIdx maxIdx,
        asciiFuzzyIndex target (lowered u caseSensitive query) = some (minIdx, maxIdx) ∧
        WindowResult u caseSensitive target (lowered u caseSensitive query) minIdx maxIdx withPos
          out) := by
  by_cases hquery : query = []
  · refine ⟨some ⟨0, 0, 0, none⟩, fun fuel _ => ?_, iff_of_true rfl (.inl hquery),
      fun h => absurd hquery h⟩
    rw [fuzzyMatch, if_pos (by rw [hquery]; rfl)]
  · have hlength : query.length ≠ 0 := fun h => hquery (List.eq_nil_of_length_eq_zero h)
    have hne := lowered_ne_nil u caseSensitive hquery
    by_cases htarget : target = []
    · refine ⟨none, fun fuel _ => ?_, iff_of_false nofun fun h => ?_, fun _ r hr => by cases hr⟩
      · rw [fuzzyMatch, if_neg hlength, if_pos (by rw [htarget]; rfl)]
      · obtain ⟨_, hsub⟩ := h.resolve_left hquery
        rw [htarget] at hsub
        exact hne (List.sublist_nil.mp hsub)
    · have htarget' : target.length ≠ 0 := fun h => htarget (List.eq_nil_of_length_eq_zero h)
      obtain ⟨out, hout, hiff, hwindow⟩ := fuzzyMatchV2_spec u caseSensitive target hne withPos
      refine ⟨out, fun fuel hfuel => ?_, ?_, fun _ => hwindow⟩
      · rw [fuzzyMatch, if_neg hlength, if_neg htarget']
        exact hout fuel hfuel
      · rw [hiff, leftOver_takes_iff, or_iff_right hquery]
        rfl

/-- **When a query is found as it should be.** For all strings and both case
modes the search ends, and finds the query if and only if it is a subsequence,
exactly in this case: it is none, or it is one in ASCII. -/
theorem fuzzyMatch_accepts_iff (u : Unicode) (caseSensitive withPos : Bool)
    (query target : JsString) :
    ∃ out, (∀ fuel, target.length ≤ fuel →
        fuzzyMatch u query target withPos caseSensitive fuel = some out) ∧
      ((out.isSome ↔ IsSubsequence u caseSensitive query target) ↔
        (IsSubsequence u caseSensitive query target →
          IsAsciiSubsequence u caseSensitive query target)) := by
  obtain ⟨out, hout, hiff, _⟩ := fuzzyMatch_spec u caseSensitive withPos query target
  refine ⟨out, hout, ?_⟩
  have hfound : out.isSome ↔ IsAsciiSubsequence u caseSensitive query target := by
    rw [hiff]
    refine or_iff_right_of_imp fun hnil => ?_
    rw [IsAsciiSubsequence, hnil, lowered_nil]
    exact ⟨rfl, List.nil_sublist _⟩
  rw [hfound]
  exact ⟨fun h => h.mpr, fun h => ⟨IsAsciiSubsequence.isSubsequence, h⟩⟩

end

/-! ### Latin letters -/

/-- `toLowerCase` of a code unit, up to `ÿ` and for the two that become ASCII. -/
def latinLower (c : ℕ) : JsString :=
  if c < 128 then [asciiLower c]
  else if c = 0x212A then [0x6B]
  else if c = 0x130 then [0x69, 0x307]
  else if 0xC0 ≤ c ∧ c ≤ 0xDE ∧ c ≠ 0xD7 then [c + 32]
  else [c]

def latinUpper (c : ℕ) : JsString :=
  if c < 128 then [asciiUpper c]
  else if 0xE0 ≤ c ∧ c ≤ 0xFE ∧ c ≠ 0xF7 then [c - 32]
  else [c]

theorem latinLower_lowersTo (c : ℕ) : LowersTo c (latinLower c) := by
  unfold LowersTo latinLower
  split_ifs
  · rfl
  · rfl
  · rfl
  · exact ⟨List.cons_ne_nil _ _, fun d hd => by rw [List.mem_singleton.mp hd]; omega⟩
  · exact ⟨List.cons_ne_nil _ _, fun d hd => by rw [List.mem_singleton.mp hd]; omega⟩

/-- The letters of the Latin alphabets. -/
def latin : Unicode where
  toLowerCase s := s.flatMap latinLower
  toUpperCase s := s.flatMap latinUpper
  isLetter c := isLower c || isUpper c || decide (0xC0 ≤ c ∧ c ≤ 0xFF ∧ c ≠ 0xD7 ∧ c ≠ 0xF7)
  lowers s := by
    refine ⟨s.map latinLower, ?_, rfl⟩
    rw [List.forall₂_map_right_iff]
    exact List.forall₂_same.mpr fun c _ => latinLower_lowersTo c

/-- `é` is not found in `é`. -/
theorem not_fuzzyMatch_accepts :
    ¬ ∀ (u : Unicode) (caseSensitive withPos : Bool) (query target : JsString),
      ∃ out, (∀ fuel, target.length ≤ fuel →
          fuzzyMatch u query target withPos caseSensitive fuel = some out) ∧
        (out.isSome ↔ IsSubsequence u caseSensitive query target) := by
  intro h
  obtain ⟨out, hout, hiff⟩ := h latin false false [0xE9] [0xE9]
  have hnull : fuzzyMatch latin [0xE9] [0xE9] false false 1 = some none := by decide
  obtain rfl : none = out := Option.some.inj (hnull.symm.trans (hout 1 le_rfl))
  exact absurd (hiff.mpr (List.Sublist.refl _)) (by decide)

/-! ### What is found -/

section

variable {u : Unicode} {caseSensitive : Bool} {query target pattern text : JsString}

/-- The positions are a real match: they increase, there is one for each
character of the query, and there the target has that character, up to case
unless the search is case sensitive. Behind the last of them is the end. -/
structure IsRealMatch (u : Unicode) (caseSensitive : Bool) (query target : JsString)
    (r : FuzzyResult) (positions : List ℤ) : Prop where
  increasing : positions.Pairwise (· < ·)
  length : positions.length = query.length
  spells : ∀ (k : ℕ) p, positions[k]? = some p → ∃ c q, item target p = some c ∧
    query[k]? = some q ∧ lowered u caseSensitive [c] = lowered u caseSensitive [q]
  stop : positions.getLast? = some (r.stop - 1)

/-- What is ASCII in lower case was one character each. -/
theorem lowered_ascii (hascii : isAscii (lowered u caseSensitive query) = true) :
    List.Forall₂ (fun q d => lowered u caseSensitive [q] = [d]) query
      (lowered u caseSensitive query) := by
  cases caseSensitive with
  | true => exact List.forall₂_same.mpr fun _ _ => rfl
  | false =>
    obtain ⟨pieces, hpieces, hlower⟩ := u.lowers query
    have hall : ∀ d ∈ pieces.flatten, d < 128 := by
      rw [← hlower]
      exact mem_isAscii hascii
    rw [show lowered u false query = u.toLowerCase query from rfl, hlower]
    clear hlower hascii
    induction hpieces with
    | nil => exact .nil
    | @cons q piece query pieces hpiece _ ih =>
      have hrest := ih fun d hd => hall d (List.mem_append_right piece hd)
      have hsingle : ∃ d, piece = [d] ∧ u.toLowerCase [q] = [d] := by
        have hq := toLowerCase_single u q
        have hthere : ∀ d ∈ piece, d < 128 := fun d hd => hall d (List.mem_append_left _ hd)
        unfold LowersTo at hpiece hq
        split_ifs at hpiece hq
        · exact ⟨_, hpiece, hq⟩
        · exact ⟨_, hpiece, hq⟩
        · rw [hpiece] at hthere
          exact absurd (hthere 0x307 (by simp)) (by decide)
        · obtain ⟨d, hd⟩ := List.exists_mem_of_ne_nil _ hpiece.1
          exact absurd (hpiece.2 d hd) (by have := hthere d hd; omega)
      obtain ⟨d, rfl, hq⟩ := hsingle
      exact .cons hq hrest

/-- Where the pattern is spelled, the query is. -/
theorem IsMatchOf.isRealMatch {r : FuzzyResult} {positions : List ℤ}
    (hm : IsMatchOf caseSensitive target (lowered u caseSensitive query) r positions)
    (hascii : isAscii (lowered u caseSensitive query) = true) :
    IsRealMatch u caseSensitive query target r positions where
  increasing := hm.increasing
  length := hm.length.trans (lowered_ascii hascii).length_eq.symm
  spells k p hp := by
    obtain ⟨c, hc, hpattern⟩ := hm.spells k p hp
    have hk := (List.getElem?_eq_some_iff.mp hpattern).1
    have hq : k < query.length := by rwa [(lowered_ascii hascii).length_eq]
    have hsame := List.forall₂_iff_get.mp (lowered_ascii hascii) |>.2 k hq hk
    rw [List.get_eq_getElem, List.get_eq_getElem,
      (List.getElem?_eq_some_iff.mp hpattern).2] at hsame
    refine ⟨c, query[k], hc, List.getElem?_eq_getElem hq, ?_⟩
    rw [hsame]
    have hd := mem_isAscii hascii _ (List.mem_of_getElem? hpattern)
    cases caseSensitive with
    | true => rfl
    | false =>
      have hc' : c < 128 := by
        simp only [fold, Bool.false_eq_true, if_false, asciiLower, isUpper, decide_eq_true_eq] at hd
        split_ifs at hd <;> omega
      exact toLowerCase_ascii u hc'
  stop := hm.stop

/-- **Fuzzy positions are a real match**, for every query and target in both
case modes. The search ends, none of the scores it compares is of a cell that is
not filled, and a run length that is not filled counts as 0. It starts no later
than the first position. -/
theorem fuzzyMatch_positions (u : Unicode) (caseSensitive : Bool) (query target : JsString)
    (hquery : query ≠ []) :
    ∃ out, (∀ fuel, target.length ≤ fuel →
        fuzzyMatch u query target true caseSensitive fuel = some out) ∧
      ∀ r, out = some r → ∃ positions, r.positions = some positions ∧
        IsRealMatch u caseSensitive query target r positions ∧
        (∀ p ∈ positions, r.start ≤ p) ∧
        (query.length ≠ 1 → ∃ minIdx maxIdx,
          asciiFuzzyIndex target (lowered u caseSensitive query) = some (minIdx, maxIdx) ∧
          ∀ fuel, target.length ≤ fuel →
            wayThrough u caseSensitive target (lowered u caseSensitive query) fuel minIdx maxIdx
              id = some positions ∧
            wayThrough u caseSensitive target (lowered u caseSensitive query) fuel minIdx maxIdx
              (Matrix.completed · 0) = some positions) := by
  obtain ⟨out, hout, hiff, hwindow⟩ := fuzzyMatch_spec u caseSensitive true query target
  refine ⟨out, hout, fun r hr => ?_⟩
  obtain ⟨hascii, _⟩ := (hiff.mp (by rw [hr]; rfl)).resolve_left hquery
  obtain ⟨minIdx, maxIdx, hindex, hresult⟩ := hwindow hquery r hr
  obtain ⟨positions, hpositions, hm, hway⟩ := hresult.positions rfl r hr
  refine ⟨positions, hpositions, hm.isRealMatch hascii, hm.start, fun hlength =>
    ⟨minIdx, maxIdx, hindex, hway ?_⟩⟩
  rwa [← (lowered_ascii hascii).length_eq]

end

theorem fuzzyMatch_positions_barbaz :
    let query := "oBZ".toList.map Char.toNat
    let target := "fooBarbaz1".toList.map Char.toNat
    ∃ out, (∀ fuel, target.length ≤ fuel → fuzzyMatch latin query target true false fuel = some out) ∧
      ∀ r, out = some r → ∃ positions, r.positions = some positions ∧
        IsRealMatch latin false query target r positions ∧
        (∀ p ∈ positions, r.start ≤ p) ∧
        (query.length ≠ 1 → ∃ minIdx maxIdx,
          asciiFuzzyIndex target (lowered latin false query) = some (minIdx, maxIdx) ∧
          ∀ fuel, target.length ≤ fuel →
            wayThrough latin false target (lowered latin false query) fuel minIdx maxIdx
              id = some positions ∧
            wayThrough latin false target (lowered latin false query) fuel minIdx maxIdx
              (Matrix.completed · 0) = some positions) :=
  fuzzyMatch_positions latin false _ _ (by decide)

/-- In `aaa..b` an open cell decides whether `ab` is found at 0 or at 2, and in
`aaab` the match starts at 0, the positions at 2. -/
theorem not_fuzzyMatch_positions :
    (¬ ∀ (u : Unicode) (caseSensitive : Bool) (query target : JsString) (minIdx maxIdx fuel : ℕ)
      (run : ℤ), asciiFuzzyIndex target (lowered u caseSensitive query) = some (minIdx, maxIdx) →
      wayThrough u caseSensitive target (lowered u caseSensitive query) fuel minIdx maxIdx
          (Matrix.completed · run) =
        wayThrough u caseSensitive target (lowered u caseSensitive query) fuel minIdx maxIdx id) ∧
    ¬ ∀ (u : Unicode) (caseSensitive : Bool) (query target : JsString) (fuel : ℕ) (r : FuzzyResult)
      (positions : List ℤ), fuzzyMatch u query target true caseSensitive fuel = some (some r) →
      r.positions = some positions → positions.head? = some r.start := by
  refine ⟨fun h => ?_, fun h => ?_⟩
  · have := h latin true [97, 98] [97, 97, 97, 46, 46, 98] 0 6 6 1 (by decide)
    exact absurd this (by decide +kernel)
  · have := h latin true [97, 98] [97, 97, 97, 98] 4 ⟨0, 4, 36, some [2, 3]⟩ [2, 3] (by decide +kernel)
      rfl
    exact absurd this (by decide)

end Fuzzy
end Gitdot
