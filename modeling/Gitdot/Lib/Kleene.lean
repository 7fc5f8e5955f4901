/-
# Conditions with nulls

A comparison with a null is unknown, neither true nor false, and the connectives of
a query compute with the three truth values. A row is kept when the condition on it
is true, so for that alone the connectives are those of logic (`holds_and`,
`holds_or`), an equation holds of two values that are there, and membership of a
value among values that are there (`holds_eq`, `holds_isIn`).

Key definitions: `Truth`, `Truth.and`, `Truth.or`, `Truth.eq`, `Truth.isIn`,
`Truth.Holds`.
Key theorems: `Truth.holds_and`, `Truth.holds_or`, `Truth.holds_eq`,
`Truth.holds_isIn`.
-/
import Mathlib.Data.List.Basic

namespace Lib

/-- The value of a condition. -/
inductive Truth where
  | yes
  | no
  | unknown
  deriving DecidableEq

namespace Truth

/-- A condition on columns that are not null. -/
def ofBool : Bool → Truth
  | true => .yes
  | false => .no

def and : Truth → Truth → Truth
  | .no, _ => .no
  | .yes, t => t
  | .unknown, .no => .no
  | .unknown, _ => .unknown

def or : Truth → Truth → Truth
  | .yes, _ => .yes
  | .no, t => t
  | .unknown, .yes => .yes
  | .unknown, _ => .unknown

/-- `a = b`, of values that may be null. -/
def eq {α : Type} [DecidableEq α] : Option α → Option α → Truth
  | some a, some b => ofBool (decide (a = b))
  | _, _ => .unknown

/-- `a IN bs`. -/
def isIn {α : Type} [DecidableEq α] (a : Option α) : List (Option α) → Truth
  | [] => .no
  | b :: bs => (eq a b).or (isIn a bs)

/-- What `WHERE` keeps, and `COALESCE` with `false` says of. -/
def Holds (t : Truth) : Prop := t = .yes

instance (t : Truth) : Decidable t.Holds := inferInstanceAs (Decidable (t = .yes))

variable {s t : Truth}

@[simp] theorem holds_ofBool {b : Bool} : (ofBool b).Holds ↔ b = true := by
  cases b <;> simp [ofBool, Holds]

@[simp] theorem holds_and : (s.and t).Holds ↔ s.Holds ∧ t.Holds := by
  cases s <;> cases t <;> simp [and, Holds]

@[simp] theorem holds_or : (s.or t).Holds ↔ s.Holds ∨ t.Holds := by
  cases s <;> cases t <;> simp [or, Holds]

variable {α : Type} [DecidableEq α]

theorem holds_eq {a b : Option α} : (eq a b).Holds ↔ ∃ v, a = some v ∧ b = some v := by
  cases a with
  | none => simp [eq, Holds]
  | some a =>
    cases b with
    | none => simp [eq, Holds]
    | some b =>
      rw [eq, holds_ofBool, decide_eq_true_iff]
      simp [eq_comm]

/-- Nulls among the values neither add to what holds nor take from it. -/
theorem holds_isIn {a : Option α} : ∀ {bs : List (Option α)},
    (isIn a bs).Holds ↔ ∃ v, a = some v ∧ some v ∈ bs
  | [] => by simp [isIn, Holds]
  | b :: bs => by
    rw [isIn, holds_or, holds_eq, holds_isIn]
    constructor
    · rintro (⟨v, rfl, rfl⟩ | ⟨v, rfl, hv⟩)
      · exact ⟨v, rfl, List.mem_cons_self⟩
      · exact ⟨v, rfl, List.mem_cons_of_mem b hv⟩
    · rintro ⟨v, rfl, hv⟩
      rcases List.mem_cons.mp hv with rfl | hv
      · exact .inl ⟨v, rfl, rfl⟩
      · exact .inr ⟨v, rfl, hv⟩

/-- A value that is there equals another if the other is that value. -/
theorem holds_eq_some {a : α} {b : Option α} : (eq (some a) b).Holds ↔ b = some a := by
  rw [holds_eq]
  constructor
  · rintro ⟨v, ha, rfl⟩
    exact ha.symm
  · rintro rfl
    exact ⟨a, rfl, rfl⟩

theorem holds_isIn_some {a : α} {bs : List (Option α)} :
    (isIn (some a) bs).Holds ↔ some a ∈ bs := by
  rw [holds_isIn]
  constructor
  · rintro ⟨v, ha, hv⟩
    exact ha ▸ hv
  · exact fun h => ⟨a, rfl, h⟩

end Truth
end Lib
