/-
# Histories: ancestry in a graph given by its parent lists

A history is a graph given by the list of parents of each node; `Anc` is
ancestry, a node being its own ancestor. A list whose nodes are each an
ancestor of the next is a stack (`Stack`), and a stack in which each node is
the first parent of the next is a parent chain (`ParentChain`).

For a history over `ℕ` in which parents are smaller than their children,
ancestry is computed by `isAnc`, and `rangeOf` lists what is reachable from
one node and not from another, latest time first.

Key definitions: `Anc`, `Stack`, `ParentChain`, `isAnc`, `rangeOf`.
Key theorems: `ParentChain.stack`, `isAnc_iff`, `mem_rangeOf`.
-/
import Mathlib.Data.List.Sort
import Mathlib.Data.List.Chain
import Mathlib.Logic.Relation
import Mathlib.Tactic.Common

namespace Lib

section Ancestry

variable {V : Type} (parents : V → List V)

/-- `a` is an ancestor of `b`, or `b` itself. -/
def Anc (a b : V) : Prop := Relation.ReflTransGen (fun x y => x ∈ parents y) a b

/-- Each node of the list is an ancestor of every later one. -/
def Stack (l : List V) : Prop := l.Pairwise (Anc parents)

/-- Each node of the list is the first parent of the next. -/
def ParentChain (l : List V) : Prop := l.IsChain fun a b => (parents b).head? = some a

instance [DecidableEq V] (l : List V) : Decidable (ParentChain parents l) :=
  inferInstanceAs (Decidable (l.IsChain fun a b => (parents b).head? = some a))

instance [∀ a b, Decidable (Anc parents a b)] (l : List V) : Decidable (Stack parents l) :=
  inferInstanceAs (Decidable (l.Pairwise (Anc parents)))

variable {parents}

theorem Anc.refl (a : V) : Anc parents a a := Relation.ReflTransGen.refl

theorem Anc.trans {a b c : V} (hab : Anc parents a b) (hbc : Anc parents b c) : Anc parents a c :=
  Relation.ReflTransGen.trans hab hbc

theorem Anc.of_parent {a b : V} (h : a ∈ parents b) : Anc parents a b :=
  Relation.ReflTransGen.single h

theorem Anc.of_firstParent {a b : V} (h : (parents b).head? = some a) : Anc parents a b :=
  .of_parent (List.mem_of_head? h)

/-- The last step of ancestry: from a node to one of its parents. -/
theorem Anc.eq_or_parent {a b : V} (h : Anc parents a b) :
    a = b ∨ ∃ p ∈ parents b, Anc parents a p := by
  rcases Relation.ReflTransGen.cases_tail h with h | ⟨p, hap, hpb⟩
  · exact .inl h.symm
  · exact .inr ⟨p, hpb, hap⟩

theorem ParentChain.stack {l : List V} (h : ParentChain parents l) : Stack parents l := by
  have : l.IsChain (Anc parents) := h.imp fun _ _ => Anc.of_firstParent
  have : Trans (Anc parents) (Anc parents) (Anc parents) := ⟨Anc.trans⟩
  exact List.isChain_iff_pairwise.mp ‹_›

end Ancestry

/-! ### Computing ancestry -/

section Compute

variable (parents : ℕ → List ℕ)

/-- Ancestry, searched through at most `fuel` generations. -/
def isAnc : ℕ → ℕ → ℕ → Bool
  | 0, a, b => a == b
  | fuel + 1, a, b => a == b || (parents b).any fun p => isAnc fuel a p

variable {parents}

theorem anc_of_isAnc : ∀ {fuel a b : ℕ}, isAnc parents fuel a b = true → Anc parents a b
  | 0, a, b, h => by
    have : a = b := by simpa [isAnc] using h
    exact this ▸ .refl _
  | fuel + 1, a, b, h => by
    simp only [isAnc, Bool.or_eq_true, beq_iff_eq, List.any_eq_true] at h
    rcases h with rfl | ⟨p, hp, h⟩
    · exact .refl _
    · exact (anc_of_isAnc h).trans (.of_parent hp)

/-- When parents are smaller than their children, `b` generations suffice. -/
theorem isAnc_of_anc (hlt : ∀ n, ∀ p ∈ parents n, p < n) : ∀ {fuel a b : ℕ}, b ≤ fuel →
    Anc parents a b → isAnc parents fuel a b = true
  | 0, a, b, hb, h => by
    rcases h.eq_or_parent with rfl | ⟨p, hp, -⟩
    · simp [isAnc]
    · have := hlt b p hp
      omega
  | fuel + 1, a, b, hb, h => by
    simp only [isAnc, Bool.or_eq_true, beq_iff_eq, List.any_eq_true]
    rcases h.eq_or_parent with rfl | ⟨p, hp, h⟩
    · exact .inl rfl
    · have := hlt b p hp
      exact .inr ⟨p, hp, isAnc_of_anc hlt (by omega) h⟩

theorem isAnc_iff (hlt : ∀ n, ∀ p ∈ parents n, p < n) {a b : ℕ} :
    isAnc parents b a b = true ↔ Anc parents a b :=
  ⟨anc_of_isAnc, isAnc_of_anc hlt le_rfl⟩

theorem anc_le (hlt : ∀ n, ∀ p ∈ parents n, p < n) {a b : ℕ} (h : Anc parents a b) : a ≤ b := by
  induction h with
  | refl => exact le_rfl
  | tail _ hp ih => exact ih.trans (hlt _ _ hp).le

variable (parents) (time : ℕ → ℤ)

/-- What is reachable from `new` and not from a node of `hide`, latest time
first. -/
def rangeOf (new : ℕ) (hide : Option ℕ) : List ℕ :=
  ((List.range (new + 1)).reverse.filter fun c =>
    isAnc parents new c new && hide.all fun old => !isAnc parents old c old).insertionSort
      fun a b => time b ≤ time a

variable {parents time}

theorem mem_rangeOf (hlt : ∀ n, ∀ p ∈ parents n, p < n) {new c : ℕ} {hide : Option ℕ} :
    c ∈ rangeOf parents time new hide ↔
      Anc parents c new ∧ ∀ old, hide = some old → ¬ Anc parents c old := by
  simp only [rangeOf, List.mem_insertionSort, List.mem_filter, List.mem_reverse, List.mem_range,
    Bool.and_eq_true, isAnc_iff hlt]
  constructor
  · rintro ⟨-, hnew, hhide⟩
    refine ⟨hnew, fun old hold hanc => ?_⟩
    subst hold
    simp [isAnc_iff hlt |>.mpr hanc] at hhide
  · rintro ⟨hnew, hhide⟩
    refine ⟨Nat.lt_succ_of_le (anc_le hlt hnew), hnew, ?_⟩
    cases hide with
    | none => rfl
    | some old =>
      have : isAnc parents old c old ≠ true := fun h => hhide old rfl (anc_of_isAnc h)
      simpa using this

theorem nodup_rangeOf (new : ℕ) (hide : Option ℕ) : (rangeOf parents time new hide).Nodup :=
  (List.perm_insertionSort _ _).nodup_iff.mpr
    (List.Nodup.filter _ (List.nodup_reverse.mpr List.nodup_range))

theorem sorted_rangeOf (new : ℕ) (hide : Option ℕ) :
    (rangeOf parents time new hide).Pairwise fun a b => time b ≤ time a := by
  have : Std.Total fun a b : ℕ => time b ≤ time a := ⟨fun a b => le_total (time b) (time a)⟩
  have : IsTrans ℕ fun a b => time b ≤ time a := ⟨fun _ _ _ hab hbc => hbc.trans hab⟩
  exact List.pairwise_insertionSort _ _

end Compute

end Lib
