/-
# Parts of a concatenation

What a concatenation says about the parts it was made of: where a part is
closed by a mark that is not in it, it can be read off (`append_cons_inj`), and
a part that is written twice is known from the two together
(`append_self_inj`).

Key theorems: `append_cons_inj`, `append_self_inj`, `append_cons_ne`.
-/
import Mathlib.Data.List.Basic

namespace Lib
namespace Framing

variable {α : Type*} {a b x y : List α}

/-- **Marks.** What is in front of the first mark, the mark, and what is behind it. -/
theorem append_cons_inj {P : α → Prop} {c d : α} (ha : ∀ e ∈ a, ¬ P e) (hb : ∀ e ∈ b, ¬ P e)
    (hc : P c) (hd : P d) (h : a ++ c :: x = b ++ d :: y) : a = b ∧ c = d ∧ x = y := by
  induction a generalizing b with
  | nil =>
    cases b with
    | nil =>
      obtain ⟨rfl, rfl⟩ := List.cons.inj h
      exact ⟨rfl, rfl, rfl⟩
    | cons e b =>
      obtain ⟨rfl, -⟩ := List.cons.inj h
      exact absurd hc (hb _ List.mem_cons_self)
  | cons e a ih =>
    cases b with
    | nil =>
      obtain ⟨rfl, -⟩ := List.cons.inj h
      exact absurd hd (ha _ List.mem_cons_self)
    | cons f b =>
      obtain ⟨rfl, htail⟩ := List.cons.inj h
      obtain ⟨rfl, rfl, rfl⟩ := ih (fun g hg => ha g (List.mem_cons_of_mem _ hg))
        (fun g hg => hb g (List.mem_cons_of_mem _ hg)) htail
      exact ⟨rfl, rfl, rfl⟩

/-- A list that has been doubled. -/
theorem append_self_inj (h : a ++ a = b ++ b) : a = b := by
  have hlen := congrArg List.length h
  rw [List.length_append, List.length_append] at hlen
  exact (List.append_inj h (by omega)).1

/-- Without a mark there is nothing to be told from what is behind a mark. -/
theorem append_cons_ne {P : α → Prop} {d : α} (ha : ∀ e ∈ a, ¬ P e) (hd : P d) : a ≠ b ++ d :: y :=
  fun h => ha d (h ▸ List.mem_append_right b List.mem_cons_self) hd

end Framing
end Lib
