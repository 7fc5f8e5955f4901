/-
# The greedy search for a subsequence

A list of patterns is looked for in a list, each at the first element behind
the one before that it takes. `leftOver` is what is left of the patterns at
the end; a search in two parts goes on where the first one ended
(`leftOver_append`), so a loop over the list carries it along.

Nothing is left exactly if the patterns embed at all
(`leftOver_eq_nil_iff`), an element that the next pattern does not take
changes nothing (`leftOver_skip`), and without an element for the last
pattern the search does not end (`leftOver_ne_nil`).

Key definitions: `leftOver`.
Key theorems: `leftOver_append`, `leftOver_eq_nil_iff`, `leftOver_skip`,
`leftOver_ne_nil`.
-/
import Mathlib.Data.List.Forall2

namespace Lib

variable {α β : Type*}

section Embedding

variable {R : α → β → Prop} {p : α} {ps : List α} {xs : List β}

theorem sublistForall₂_of_cons (h : List.SublistForall₂ R (p :: ps) xs) :
    List.SublistForall₂ R ps xs := by
  induction xs with
  | nil => cases h
  | cons x xs ih =>
    cases h with
    | cons _ hps => exact .cons_right hps
    | cons_right h => exact .cons_right (ih h)

/-- Patterns that take more elements embed where the others do. -/
theorem sublistForall₂_imp {S : α → β → Prop} (h : List.SublistForall₂ R ps xs) :
    (∀ p ∈ ps, ∀ x ∈ xs, R p x → S p x) → List.SublistForall₂ S ps xs := by
  induction h with
  | nil => exact fun _ => .nil
  | cons hpx _ ih =>
    exact fun himp => .cons (himp _ List.mem_cons_self _ List.mem_cons_self hpx)
      (ih fun p hp x hx => himp p (List.mem_cons_of_mem _ hp) x (List.mem_cons_of_mem _ hx))
  | cons_right _ ih =>
    exact fun himp => .cons_right (ih fun p hp x hx => himp p hp x (List.mem_cons_of_mem _ hx))

end Embedding

variable (R : α → β → Prop) [DecidableRel R]

/-- What is left of the patterns. -/
def leftOver : List α → List β → List α
  | [], _ => []
  | p :: ps, [] => p :: ps
  | p :: ps, x :: xs => if R p x then leftOver ps xs else leftOver (p :: ps) xs

variable {R} {p : α} {ps : List α} {x : β} {xs ys : List β}

@[simp] theorem leftOver_nil (xs : List β) : leftOver R [] xs = [] := by
  cases xs <;> rfl

@[simp] theorem leftOver_empty : ∀ ps : List α, leftOver R ps [] = ps
  | [] => rfl
  | _ :: _ => rfl

theorem leftOver_take (h : R p x) : leftOver R (p :: ps) (x :: xs) = leftOver R ps xs := if_pos h

theorem leftOver_pass (h : ¬ R p x) : leftOver R (p :: ps) (x :: xs) = leftOver R (p :: ps) xs :=
  if_neg h

/-- The search goes on where it stopped. -/
theorem leftOver_append : ∀ (ps : List α) (xs ys : List β),
    leftOver R ps (xs ++ ys) = leftOver R (leftOver R ps xs) ys
  | [], xs, ys => by simp
  | p :: ps, [], ys => rfl
  | p :: ps, x :: xs, ys => by
    rw [List.cons_append]
    by_cases h : R p x
    · rw [leftOver_take h, leftOver_take h, leftOver_append ps xs ys]
    · rw [leftOver_pass h, leftOver_pass h, leftOver_append (p :: ps) xs ys]

theorem leftOver_suffix : ∀ (ps : List α) (xs : List β), leftOver R ps xs <:+ ps
  | [], xs => by simp
  | p :: ps, [] => List.suffix_rfl
  | p :: ps, x :: xs => by
    by_cases h : R p x
    · rw [leftOver_take h]
      exact (leftOver_suffix ps xs).trans (List.suffix_cons p ps)
    · rw [leftOver_pass h]
      exact leftOver_suffix (p :: ps) xs

/-- Elements that the first pattern does not take are passed. -/
theorem leftOver_skip : ∀ (xs : List β), (∀ x ∈ xs, ¬ R p x) →
    leftOver R (p :: ps) xs = p :: ps
  | [], _ => rfl
  | x :: xs, h => by
    rw [leftOver_pass (h x List.mem_cons_self)]
    exact leftOver_skip xs fun y hy => h y (List.mem_cons_of_mem x hy)

/-- Without an element for the last pattern something is left. -/
theorem leftOver_ne_nil {last : α} : ∀ (ps : List α) (xs : List β), ps.getLast? = some last →
    (∀ x ∈ xs, ¬ R last x) → leftOver R ps xs ≠ []
  | [], _, h, _ => by cases h
  | p :: ps, [], _, _ => List.cons_ne_nil p ps
  | p :: ps, x :: xs, h, hxs => by
    have hrest : ∀ y ∈ xs, ¬ R last y := fun y hy => hxs y (List.mem_cons_of_mem x hy)
    by_cases hp : R p x
    · cases ps with
      | nil =>
        obtain rfl : p = last := Option.some.inj h
        exact absurd hp (hxs x List.mem_cons_self)
      | cons q ps =>
        rw [leftOver_take hp]
        exact leftOver_ne_nil (q :: ps) xs (by rwa [List.getLast?_cons_cons] at h) hrest
    · rw [leftOver_pass hp]
      exact leftOver_ne_nil (p :: ps) xs h hrest

/-- **The greedy choice.** Nothing is left if and only if the patterns embed. -/
theorem leftOver_eq_nil_iff : ∀ (ps : List α) (xs : List β),
    leftOver R ps xs = [] ↔ List.SublistForall₂ R ps xs
  | [], xs => iff_of_true (leftOver_nil xs) .nil
  | p :: ps, [] => iff_of_false (List.cons_ne_nil p ps) fun h => by cases h
  | p :: ps, x :: xs => by
    by_cases hp : R p x
    · rw [leftOver_take hp, leftOver_eq_nil_iff ps xs]
      refine ⟨fun h => .cons hp h, fun h => ?_⟩
      -- whatever takes `p`, the rest embeds behind `x`
      cases h with
      | cons _ hps => exact hps
      | cons_right h => exact sublistForall₂_of_cons h
    · rw [leftOver_pass hp, leftOver_eq_nil_iff (p :: ps) xs]
      refine ⟨fun h => .cons_right h, fun h => ?_⟩
      cases h with
      | cons hpx _ => exact absurd hpx hp
      | cons_right h => exact h

/-- What is found is no longer than the list. -/
theorem length_le_of_leftOver (h : leftOver R ps xs = []) : ps.length ≤ xs.length := by
  obtain ⟨l, hl, hsub⟩ := List.sublistForall₂_iff.mp ((leftOver_eq_nil_iff ps xs).mp h)
  rw [hl.length_eq]
  exact hsub.length_le

/-- Patterns that take more elements are found where the others are. -/
theorem leftOver_imp {S : α → β → Prop} [DecidableRel S] (h : leftOver R ps xs = [])
    (himp : ∀ p ∈ ps, ∀ x ∈ xs, R p x → S p x) : leftOver S ps xs = [] := by
  rw [leftOver_eq_nil_iff] at h ⊢
  exact sublistForall₂_imp h himp

end Lib
