/-
# Regular expressions: what is a pattern

A text is a pattern if its tokens derive a tree (`TextOf`) that has no early error
(`Node.Valid`): no two groups of one name that could both take part in a match, no
reference to a name that is not there. The text is read up to three times, since its
groups tell how it is to be read (`PatternOf`, `parsePattern_eq_some`).

Text without a character of the syntax is a pattern, whose tree is the sequence of its
characters (`patternOf_literal`).

Key definitions: `Node.names`, `Node.Valid`, `TextOf`, `PatternOf`, `parsePattern`,
`Literal`, `literal`.
Key theorems: `parseText_eq_some`, `parsePattern_eq_some`, `patternOf_literal`.
-/
import Gitdot.Lib.RegExp.Grammar
import Mathlib.Algebra.Group.Nat.Defs
import Mathlib.Data.List.Induction

namespace Lib
namespace RegExp

open Lexing

/-! ### Groups and references -/

namespace Node

/-- The names of the groups, in the order of their parentheses, `none` for a group
without one. -/
def names : Node → List (Option GroupName)
  | seq a t => a.names ++ t.names
  | alt a d => a.names ++ d.names
  | group (.capture name) body => name :: body.names
  | group _ body => body.names
  | quantified _ body => body.names
  | _ => []

/-- The names that are referred to. -/
def references : Node → List GroupName
  | seq a t => a.references ++ t.references
  | alt a d => a.references ++ d.references
  | group _ body => body.references
  | quantified _ body => body.references
  | atom (.namedBackreference name) => [name]
  | _ => []

/-- No two groups of one name, but in different alternatives. -/
def distinctNames : Node → Bool
  | seq a t =>
    a.distinctNames && t.distinctNames && a.names.all fun name => name.isNone || decide (name ∉ t.names)
  | alt a d => a.distinctNames && d.distinctNames
  | group (.capture (some name)) body => body.distinctNames && decide (some name ∉ body.names)
  | group _ body => body.distinctNames
  | quantified _ body => body.distinctNames
  | _ => true

/-- No early error. -/
structure Valid (n : Node) : Prop where
  count : n.names.length < 2 ^ 32 - 1
  distinct : n.distinctNames = true
  known : ∀ name ∈ n.references, some name ∈ n.names

instance (n : Node) : Decidable n.Valid :=
  decidable_of_iff (n.names.length < 2 ^ 32 - 1 ∧ n.distinctNames = true ∧
      ∀ name ∈ n.references, some name ∈ n.names)
    ⟨fun h => ⟨h.1, h.2.1, h.2.2⟩, fun h => ⟨h.1, h.2, h.3⟩⟩

end Node

/-! ### Patterns -/

section

variable (u : Unicode)

/-- The tree of a text, read in one way. -/
def TextOf (env : Env) (s : CodeUnits) (n : Node) : Prop :=
  ∃ ts, Many atEnd (lexToken u env) s ts [] ∧ Derives .disjunction ts n

/-- `ParseText`. -/
def parseText (env : Env) (s : CodeUnits) : Option Node :=
  (lexTokens u env).run s |>.bind fun x => parse x.1

/-- Where there are groups with a name, and as many groups as there are: what the text is to
be read in. -/
def Node.env (n : Node) (named : Bool) : Env := ⟨named, n.names.length⟩

/-- Whether there is a group with a name. -/
def Node.named (n : Node) : Bool := n.names.any Option.isSome

/-- The tree of a pattern: it is read without named groups, again if there are some, and with
the number of its groups, which do not depend on how digits are read. -/
def PatternOf (s : CodeUnits) (n : Node) : Prop :=
  ∃ n₀ n₁, TextOf u ⟨false, 0⟩ s n₀ ∧ TextOf u ⟨n₀.named, 0⟩ s n₁ ∧
    TextOf u (n₁.env n₀.named) s n ∧ n.Valid

/-- `new RegExp(s)`, `none` where it throws a `SyntaxError`. -/
def parsePattern (s : CodeUnits) : Option Node :=
  (parseText u ⟨false, 0⟩ s).bind fun n₀ =>
    (parseText u ⟨n₀.named, 0⟩ s).bind fun n₁ =>
      (parseText u (n₁.env n₀.named) s).bind fun n => if n.Valid then some n else none

variable {u} {env : Env} {s : CodeUnits} {n : Node}

theorem atEnd_run {rest : CodeUnits} : atEnd.run s = some ((), rest) ↔ s = [] ∧ rest = [] := by
  have hrun : atEnd.run s = (check (s = [])).run s := rfl
  rw [hrun, check]
  split_ifs with hs
  · constructor
    · intro h
      obtain ⟨-, rfl⟩ := Prod.mk.inj (Option.some.inj h)
      exact ⟨hs, hs⟩
    · rintro ⟨-, rfl⟩
      rw [hs]
      rfl
  · exact ⟨nofun, fun h => absurd h.1 hs⟩

/-- At the end nothing is left. -/
theorem Many.rest_eq_nil {ts : List Token} {rest : CodeUnits}
    (h : Many atEnd (lexToken u env) s ts rest) : rest = [] := by
  induction h with
  | stop hstop => exact (atEnd_run.mp hstop).2
  | item _ _ _ ih => exact ih

theorem parseText_eq_some : parseText u env s = some n ↔ TextOf u env s n := by
  unfold parseText TextOf
  constructor
  · intro h
    obtain ⟨⟨ts, rest⟩, htokens, hparse⟩ := Option.bind_eq_some_iff.mp h
    have hmany := (many_run shortens_lexToken).mp htokens
    obtain rfl := Many.rest_eq_nil hmany
    exact ⟨ts, hmany, parse_eq_some.mp hparse⟩
  · rintro ⟨ts, hmany, hderives⟩
    exact Option.bind_eq_some_iff.mpr
      ⟨(ts, []), (many_run shortens_lexToken).mpr hmany, parse_eq_some.mpr hderives⟩

/-- **Patterns.** The reader accepts what is a pattern. -/
theorem parsePattern_eq_some : parsePattern u s = some n ↔ PatternOf u s n := by
  unfold parsePattern PatternOf
  simp only [← parseText_eq_some]
  constructor
  · intro h
    obtain ⟨n₀, h₀, h⟩ := Option.bind_eq_some_iff.mp h
    obtain ⟨n₁, h₁, h⟩ := Option.bind_eq_some_iff.mp h
    obtain ⟨n₂, h₂, h⟩ := Option.bind_eq_some_iff.mp h
    split_ifs at h with hvalid
    obtain rfl := Option.some.inj h
    exact ⟨n₀, n₁, h₀, h₁, h₂, hvalid⟩
  · rintro ⟨n₀, n₁, h₀, h₁, h, hvalid⟩
    rw [h₀, Option.bind_some, h₁, Option.bind_some, h, Option.bind_some, if_pos hvalid]

end

/-! ### Literals -/

/-- The characters that do not stand for themselves. -/
def syntaxCharacters : List Char := ['|', '(', ')', '*', '+', '?', '{', '^', '$', '.', '[', '\\']

/-- Text that stands for itself. -/
def Literal (s : CodeUnits) : Prop := ∀ c ∈ s, Char.ofNat c ∉ syntaxCharacters

instance (s : CodeUnits) : Decidable (Literal s) :=
  inferInstanceAs (Decidable (∀ c ∈ s, Char.ofNat c ∉ syntaxCharacters))

/-- The tree of a text that stands for itself. -/
def literal (s : CodeUnits) : Node := s.foldl (fun n c => .seq n (.atom (.char c))) .empty

section

variable {u : Unicode} {env : Env} {s rest : CodeUnits} {c : ℕ}

theorem lexToken_literal (hc : Char.ofNat c ∉ syntaxCharacters) :
    (lexToken u env).run (c :: rest) = some (.atom (.char c), rest) := by
  refine bind_run.mpr ⟨c, rest, rfl, ?_⟩
  split
  case h_13 => rfl
  all_goals
    rename_i heq
    rw [heq] at hc
    exact absurd (by decide) hc

theorem many_literal (hs : Literal s) :
    Many atEnd (lexToken u env) s (s.map fun c => .atom (.char c)) [] := by
  induction s with
  | nil => exact .stop rfl
  | cons c s ih =>
    have hrest : Literal s := fun d hd => hs d (List.mem_cons_of_mem c hd)
    exact .item rfl (lexToken_literal (hs c List.mem_cons_self)) (ih hrest)

theorem literal_append_singleton (s : CodeUnits) (c : ℕ) :
    literal (s ++ [c]) = .seq (literal s) (.atom (.char c)) := by
  rw [literal, List.foldl_append]
  rfl

theorem derives_literal (s : CodeUnits) :
    Derives .alternative (s.map fun c => .atom (.char c)) (literal s) := by
  induction s using List.reverseRecOn with
  | nil => exact .empty
  | append_singleton s c ih =>
    rw [List.map_append, literal_append_singleton]
    exact ih.seq (.plain (.atom (.char c)))

theorem names_literal (s : CodeUnits) : (literal s).names = [] := by
  induction s using List.reverseRecOn with
  | nil => rfl
  | append_singleton s c ih => rw [literal_append_singleton, Node.names, ih]; rfl

theorem references_literal (s : CodeUnits) : (literal s).references = [] := by
  induction s using List.reverseRecOn with
  | nil => rfl
  | append_singleton s c ih => rw [literal_append_singleton, Node.references, ih]; rfl

theorem distinctNames_literal (s : CodeUnits) : (literal s).distinctNames = true := by
  induction s using List.reverseRecOn with
  | nil => rfl
  | append_singleton s c ih =>
    rw [literal_append_singleton, Node.distinctNames, ih, names_literal]
    rfl

/-- **Literals** are patterns. -/
theorem patternOf_literal (hs : Literal s) : PatternOf u s (literal s) := by
  have htext : ∀ env, TextOf u env s (literal s) :=
    fun env => ⟨_, many_literal hs, .one (derives_literal s)⟩
  refine ⟨literal s, literal s, htext _, htext _, htext _, ?_, distinctNames_literal s, ?_⟩
  · rw [names_literal]
    decide
  · rw [references_literal]
    exact nofun

end

end RegExp
end Lib
