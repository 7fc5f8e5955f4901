/-
# The names that git accepts for refs

The rules of `git check-ref-format`, on the codes of the characters or of the
bytes of a name. They allow what shells, JSON and formats with separators may
stumble over: quotes, percent signs, digits alone and bytes beyond ASCII. What
they forbid is white space, control characters, the backslash and the colon.

Key definitions: `CheckRefFormat`, `BranchName`.
Key theorems: `BranchName.ne_empty`, `CheckRefFormat.not_mem`.
-/
import Mathlib.Data.String.Basic

namespace Gitdot

/-- Control characters, the space and `~^:?*[\`. -/
def Forbidden (c : ℕ) : Prop := c < 32 ∨ c = 127 ∨ c ∈ [32, 126, 94, 58, 63, 42, 91, 92]

instance : DecidablePred Forbidden := fun c => by unfold Forbidden; infer_instance

/-- `git check-ref-format`. -/
structure CheckRefFormat (name : List ℕ) : Prop where
  slash : 47 ∈ name
  chars : ∀ c ∈ name, ¬ Forbidden c
  /-- Nothing between two slashes is empty, begins with a dot or ends with `.lock`. -/
  components : ∀ part ∈ name.splitOn 47, part ≠ [] ∧ part.head? ≠ some 46 ∧
    ¬ [46, 108, 111, 99, 107] <:+ part
  /-- Two dots. -/
  dots : ¬ [46, 46] <:+: name
  last : name.getLast? ≠ some 46
  /-- `@` and an opening brace. -/
  atBrace : ¬ [64, 123] <:+: name

theorem CheckRefFormat.not_mem {name : List ℕ} (h : CheckRefFormat name) {c : ℕ} (hc : Forbidden c) :
    c ∉ name :=
  fun hmem => h.chars c hmem hc

/-- The codes of a name that is text. -/
def refCodes (name : String) : List ℕ := name.toList.map Char.toNat

/-- What follows `refs/heads/` in a name that git accepts. -/
structure BranchName where
  name : String
  accepted : CheckRefFormat (refCodes ("refs/heads/" ++ name))

namespace BranchName

variable (branch : BranchName)

theorem ne_empty : branch.name ≠ "" := by
  intro h
  have hparts := branch.accepted.components
  rw [h] at hparts
  exact (hparts [] (by decide)).1 rfl

/-- Characters with a forbidden code are not in the name. -/
theorem not_mem {c : Char} (hc : Forbidden c.toNat) : c ∉ branch.name.toList := by
  intro hmem
  refine branch.accepted.not_mem hc (List.mem_map_of_mem ?_)
  rw [String.toList_append]
  exact List.mem_append_right _ hmem

end BranchName

end Gitdot
