/-
# Queues of what waits for a counter

Each element of the queue waits for a counter to reach its point, and the queue is
in the order of the points. `enqueue` puts an element after all that wait for no
more than it does; `due` and `later` are the two parts that a value of the counter
cuts the queue into. Elements of one kind that come in the order of their points
stay in the order in which they came (`Ordered.filter_later`), and leave in it.

Key definitions: `Ordered`, `enqueue`, `due`, `later`.
Key theorems: `mem_takeWhile_iff`, `Ordered.enqueue`, `Ordered.lt_of_later`,
`Ordered.filter_later`.
-/
import Mathlib.Data.List.TakeWhile
import Mathlib.Tactic.Tauto

namespace Lib
namespace Waiting

variable {α : Type} (point : α → ℕ)

/-- In the order of the points. -/
def Ordered (queue : List α) : Prop := queue.Pairwise fun a b => point a ≤ point b

/-- The elements that wait for no more than `n`. -/
def due (n : ℕ) (queue : List α) : List α := queue.takeWhile fun a => decide (point a ≤ n)

/-- The others. -/
def later (n : ℕ) (queue : List α) : List α := queue.dropWhile fun a => decide (point a ≤ n)

/-- `a` at its place. -/
def enqueue (a : α) (queue : List α) : List α :=
  due point (point a) queue ++ a :: later point (point a) queue

theorem due_append_later (n : ℕ) (queue : List α) :
    due point n queue ++ later point n queue = queue :=
  List.takeWhile_append_dropWhile

variable {point} {a b : α} {n : ℕ} {queue : List α}

theorem le_of_mem_due (h : a ∈ due point n queue) : point a ≤ n :=
  by simpa using List.mem_takeWhile_imp h

/-- Where what is in front of an element passes if the element does, the elements that
pass are all in front. -/
theorem mem_takeWhile_iff {p : α → Bool} (h : queue.Pairwise fun a b => p b = true → p a = true) :
    a ∈ queue.takeWhile p ↔ a ∈ queue ∧ p a = true := by
  induction queue with
  | nil => simp
  | cons b queue ih =>
    obtain ⟨hb, hrest⟩ := List.pairwise_cons.mp h
    by_cases hp : p b = true
    · rw [List.takeWhile_cons_of_pos hp, List.mem_cons, List.mem_cons, ih hrest]
      constructor
      · rintro (rfl | ⟨hmem, ha⟩)
        · exact ⟨.inl rfl, hp⟩
        · exact ⟨.inr hmem, ha⟩
      · rintro ⟨rfl | hmem, ha⟩
        · exact .inl rfl
        · exact .inr ⟨hmem, ha⟩
    · rw [List.takeWhile_cons_of_neg hp]
      constructor
      · exact fun hmem => absurd hmem List.not_mem_nil
      · rintro ⟨hmem, ha⟩
        rcases List.mem_cons.mp hmem with rfl | hmem
        · exact absurd ha hp
        · exact absurd (hb a hmem ha) hp

theorem mem_of_mem_due (h : a ∈ due point n queue) : a ∈ queue :=
  (List.takeWhile_prefix _).subset h

theorem mem_of_mem_later (h : a ∈ later point n queue) : a ∈ queue :=
  (List.dropWhile_suffix _).subset h

theorem mem_enqueue : b ∈ enqueue point a queue ↔ b = a ∨ b ∈ queue := by
  have hsplit : b ∈ queue ↔ b ∈ due point (point a) queue ∨ b ∈ later point (point a) queue := by
    rw [← List.mem_append, due_append_later]
  simp only [enqueue, List.mem_append, List.mem_cons, hsplit]
  tauto

theorem Ordered.lt_of_later (h : Ordered point queue) (ha : a ∈ later point n queue) :
    n < point a := by
  induction queue with
  | nil => cases ha
  | cons b queue ih =>
    obtain ⟨hb, hrest⟩ := List.pairwise_cons.mp h
    unfold later at ha
    by_cases hle : point b ≤ n
    · rw [List.dropWhile_cons_of_pos (by simpa using hle)] at ha
      exact ih hrest ha
    · rw [List.dropWhile_cons_of_neg (by simpa using hle)] at ha
      rcases List.mem_cons.mp ha with rfl | ha
      · omega
      · have := hb a ha
        omega

theorem Ordered.later (h : Ordered point queue) (n : ℕ) : Ordered point (later point n queue) :=
  List.Pairwise.sublist (List.dropWhile_sublist _) h

theorem Ordered.snoc (h : Ordered point queue) (ha : ∀ b ∈ queue, point b ≤ point a) :
    Ordered point (queue ++ [a]) :=
  List.pairwise_append.mpr ⟨h, List.pairwise_singleton _ _, fun b hb c hc => by
    rw [List.mem_singleton.mp hc]
    exact ha b hb⟩

/-- The queue stays in the order of the points. -/
theorem Ordered.enqueue (h : Ordered point queue) (a : α) :
    Ordered point (enqueue point a queue) := by
  have hsplit : Ordered point
      (due point (point a) queue ++ Waiting.later point (point a) queue) := by
    rw [due_append_later]
    exact h
  obtain ⟨hdue, hlater, hcross⟩ := List.pairwise_append.mp hsplit
  refine List.pairwise_append.mpr ⟨hdue, List.pairwise_cons.mpr ⟨fun b hb => ?_, hlater⟩, ?_⟩
  · exact Nat.le_of_lt (h.lt_of_later hb)
  · intro b hb c hc
    rcases List.mem_cons.mp hc with rfl | hc
    · exact le_of_mem_due hb
    · exact hcross b hb c hc

/-- **Order of arrival.** Where an element waits for no less than any other of its
kind, none of its kind is behind it. -/
theorem Ordered.filter_later {p : α → Bool} (h : Ordered point queue)
    (hle : ∀ b ∈ queue, p b = true → point b ≤ n) :
    (Waiting.later point n queue).filter p = [] := by
  refine List.filter_eq_nil_iff.mpr fun b hb hpb => ?_
  have hlt := h.lt_of_later hb
  have := hle b (mem_of_mem_later hb) hpb
  omega

end Waiting
end Lib
