/-
# Lower case

`to_lowercase` maps each character by a table, and the capital sigma by where it
stands in its word. What the table maps to is lower case already, so text that
was mapped is a fixed point (`toLowercase_toLowercase`), and no white space comes
or goes at its ends, so trimmed text stays trimmed (`Trimmed.toLowercase`).

Key definitions: `CaseTable`, `CaseTable.toLowercase`, `Trimmed`.
Key theorems: `CaseTable.toLowercase_eq_self`, `CaseTable.toLowercase_toLowercase`,
`trimmed_trim`, `Trimmed.trim`, `Trimmed.toLowercase`.
-/
import Mathlib.Data.List.DropRight
import Mathlib.Tactic.Common

namespace Lib

/-! ### Trimming -/

/-- Neither the first nor the last element is one of those cut off. -/
structure Trimmed {α : Type} (p : α → Bool) (l : List α) : Prop where
  head : ∀ a ∈ l.head?, p a = false
  last : ∀ a ∈ l.getLast?, p a = false

section Trim

variable {α : Type} {p : α → Bool} {l : List α}

theorem head?_dropWhile_not : ∀ {l : List α}, ∀ a ∈ (l.dropWhile p).head?, p a = false
  | [], a, h => by cases h
  | b :: l, a, h => by
    rw [List.dropWhile_cons] at h
    split_ifs at h with hb
    · exact head?_dropWhile_not a h
    · obtain rfl : b = a := by simpa using h
      simpa using hb

/-- What `trim` returns. -/
theorem trimmed_trim : Trimmed p ((l.dropWhile p).rdropWhile p) := by
  refine ⟨fun a h => ?_, fun a h => ?_⟩
  · obtain ⟨rest, hrest⟩ := List.rdropWhile_prefix (p := p) (l := l.dropWhile p)
    refine head?_dropWhile_not (l := l) a ?_
    rw [← hrest, List.head?_append, Option.mem_def.mp h]
    rfl
  · have hne : (l.dropWhile p).rdropWhile p ≠ [] := by
      rintro hnil
      rw [hnil] at h
      cases h
    rw [List.getLast?_eq_getLast_of_ne_nil hne, Option.mem_some_iff] at h
    subst h
    simpa using List.rdropWhile_last_not p (l.dropWhile p) hne

/-- Trimming leaves trimmed text as it is. -/
theorem Trimmed.trim (h : Trimmed p l) : (l.dropWhile p).rdropWhile p = l := by
  have hdrop : l.dropWhile p = l := by
    cases l with
    | nil => rfl
    | cons a l => rw [List.dropWhile_cons_of_neg (by simp [h.head a rfl])]
  rw [hdrop, List.rdropWhile_eq_self_iff]
  intro hne
  rw [h.last _ (List.getLast?_eq_getLast_of_ne_nil hne)]
  nofun

end Trim

/-! ### Mapping -/

/-- The mapping of single characters to lower case, and the properties that tell
where a word ends. White space is what `space` says. -/
structure CaseTable (space : Char → Bool) where
  lower : Char → List Char
  cased : Char → Bool
  caseIgnorable : Char → Bool
  lower_ne_nil : ∀ c, lower c ≠ []
  lower_lower : ∀ c, ∀ d ∈ lower c, lower d = [d]
  lower_sigma : lower 'Σ' = ['σ']
  lower_finalSigma : lower 'ς' = ['ς']
  space_lower : ∀ c, ∀ d ∈ lower c, space d = space c
  space_sigma : space 'Σ' = false ∧ space 'σ' = false ∧ space 'ς' = false

namespace CaseTable

variable {space : Char → Bool} (T : CaseTable space)

/-- Past the characters that are ignored there is a cased one. -/
def casedNext (cs : List Char) : Bool := (cs.dropWhile T.caseIgnorable).head?.any T.cased

/-- One character, after the characters `before`, the nearest first. -/
def lowerAt (before after : List Char) (c : Char) : List Char :=
  if c = 'Σ' then [if T.casedNext before && !T.casedNext after then 'ς' else 'σ'] else T.lower c

def lowerFrom : List Char → List Char → List Char
  | _, [] => []
  | before, c :: after => T.lowerAt before after c ++ lowerFrom (c :: before) after

/-- `to_lowercase`. -/
def toLowercase (s : List Char) : List Char := T.lowerFrom [] s

/-- A character that the mapping leaves as it is. -/
def IsLower (c : Char) : Prop := c ≠ 'Σ' ∧ T.lower c = [c]

variable {T} {before after : List Char} {c d : Char}

theorem isLower_of_mem_lowerAt (h : d ∈ T.lowerAt before after c) : T.IsLower d := by
  unfold lowerAt at h
  split_ifs at h with hc hfinal
  · rw [List.mem_singleton.mp h]
    exact ⟨by decide, T.lower_finalSigma⟩
  · rw [List.mem_singleton.mp h]
    exact ⟨by decide, T.lower_lower 'Σ' 'σ' (by rw [T.lower_sigma]; exact List.mem_cons_self)⟩
  · refine ⟨?_, T.lower_lower c d h⟩
    rintro rfl
    have hsigma := T.lower_lower c 'Σ' h
    rw [T.lower_sigma] at hsigma
    exact absurd hsigma (by decide)

/-- What was mapped is lower case. -/
theorem isLower_of_mem_lowerFrom : ∀ {before s : List Char}, d ∈ T.lowerFrom before s → T.IsLower d
  | _, [], h => by cases h
  | before, c :: s, h => by
    rcases List.mem_append.mp h with h | h
    · exact isLower_of_mem_lowerAt h
    · exact isLower_of_mem_lowerFrom h

theorem lowerFrom_eq_self : ∀ {before s : List Char}, (∀ c ∈ s, T.IsLower c) →
    T.lowerFrom before s = s
  | _, [], _ => rfl
  | before, c :: s, h => by
    obtain ⟨hsigma, hc⟩ := h c List.mem_cons_self
    rw [lowerFrom, lowerAt, if_neg hsigma, hc,
      lowerFrom_eq_self fun d hd => h d (List.mem_cons_of_mem c hd)]
    rfl

/-- Lower-case text stays as it is. -/
theorem toLowercase_eq_self {s : List Char} (h : ∀ c ∈ s, T.IsLower c) : T.toLowercase s = s :=
  lowerFrom_eq_self h

/-- **Fixed points.** Text that was mapped once is mapped to itself. -/
theorem toLowercase_toLowercase (s : List Char) :
    T.toLowercase (T.toLowercase s) = T.toLowercase s :=
  toLowercase_eq_self fun _ => isLower_of_mem_lowerFrom

/-! ### White space -/

theorem lowerAt_ne_nil : T.lowerAt before after c ≠ [] := by
  unfold lowerAt
  split_ifs
  · nofun
  · nofun
  · exact T.lower_ne_nil c

theorem space_of_mem_lowerAt (h : d ∈ T.lowerAt before after c) : space d = space c := by
  unfold lowerAt at h
  split_ifs at h with hc hfinal
  · rw [List.mem_singleton.mp h, hc, T.space_sigma.1, T.space_sigma.2.2]
  · rw [List.mem_singleton.mp h, hc, T.space_sigma.1, T.space_sigma.2.1]
  · exact T.space_lower c d h

theorem space_head?_lowerFrom {s : List Char} (h : ∀ a ∈ s.head?, space a = false) :
    ∀ a ∈ (T.lowerFrom before s).head?, space a = false := by
  intro a ha
  cases s with
  | nil => cases ha
  | cons c s =>
    rw [lowerFrom, List.head?_append_of_ne_nil _ lowerAt_ne_nil] at ha
    rw [space_of_mem_lowerAt (List.mem_of_mem_head? ha)]
    exact h c rfl

theorem space_getLast?_lowerFrom : ∀ {before s : List Char}, (∀ a ∈ s.getLast?, space a = false) →
    ∀ a ∈ (T.lowerFrom before s).getLast?, space a = false
  | _, [], _, a, ha => by cases ha
  | before, [c], h, a, ha => by
    rw [lowerFrom, lowerFrom, List.append_nil] at ha
    rw [space_of_mem_lowerAt (List.mem_of_getLast? ha)]
    exact h c rfl
  | before, c :: d :: s, h, a, ha => by
    have hne : T.lowerFrom (c :: before) (d :: s) ≠ [] :=
      List.append_ne_nil_of_left_ne_nil lowerAt_ne_nil _
    rw [lowerFrom, List.getLast?_append_of_ne_nil _ hne] at ha
    exact space_getLast?_lowerFrom (fun b hb => h b (by rwa [List.getLast?_cons_cons])) a ha

end CaseTable

/-- Lower case leaves the ends of trimmed text free of white space. -/
theorem Trimmed.toLowercase {space : Char → Bool} {s : List Char} (T : CaseTable space)
    (h : Trimmed space s) : Trimmed space (T.toLowercase s) :=
  ⟨CaseTable.space_head?_lowerFrom h.head, CaseTable.space_getLast?_lowerFrom h.last⟩

end Lib
