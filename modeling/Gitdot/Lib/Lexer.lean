/-
# Lexers

Functions that read something off the front of a list of code units, or fail. Of
two lexers the second is tried where the first fails. A lexer `Keeps` if what it
leaves is not longer than what it was given, and `Shortens` if it is shorter.

Items are read one after the other until something stops them; if an item takes a
code unit at least, there are at most as many as code units (`many_run`).

Key definitions: `Lexer`, `Keeps`, `Shortens`, `Many`, `many`.
Key theorems: `bind_run`, `orElse_run`, `Shortens.bind`, `many_run`, `keeps_many`.
-/
import Gitdot.Lib.Utf16

namespace Lib
namespace Lexing

/-! ### Lexers -/

/-- Reads from the code units that are left. -/
abbrev Lexer := StateT CodeUnits Option

/-- What is left is not longer. -/
def Keeps {α : Type} (p : Lexer α) : Prop :=
  ∀ ⦃s a rest⦄, p.run s = some (a, rest) → rest.length ≤ s.length

/-- What is left is shorter. -/
def Shortens {α : Type} (p : Lexer α) : Prop :=
  ∀ ⦃s a rest⦄, p.run s = some (a, rest) → rest.length < s.length

section

variable {α β : Type} {p q : Lexer α} {f : α → Lexer β}

theorem Shortens.keeps (h : Shortens p) : Keeps p := fun _ _ _ hp => Nat.le_of_lt (h hp)

theorem bind_run {s rest : CodeUnits} {b : β} :
    (p >>= f).run s = some (b, rest) ↔
      ∃ a s', p.run s = some (a, s') ∧ (f a).run s' = some (b, rest) := by
  rw [StateT.run_bind]
  constructor
  · intro h
    obtain ⟨⟨a, s'⟩, hp, hf⟩ := Option.bind_eq_some_iff.mp h
    exact ⟨a, s', hp, hf⟩
  · rintro ⟨a, s', hp, hf⟩
    exact Option.bind_eq_some_iff.mpr ⟨(a, s'), hp, hf⟩

theorem orElse_run {s rest : CodeUnits} {a : α} :
    (p <|> q).run s = some (a, rest) ↔
      p.run s = some (a, rest) ∨ p.run s = none ∧ q.run s = some (a, rest) := by
  have horElse : (p <|> q).run s = (p.run s <|> q.run s) := rfl
  rw [horElse]
  cases hp : p.run s with
  | none => simp
  | some x => simp

theorem keeps_pure (a : α) : Keeps (pure a : Lexer α) := by
  rintro s b rest ⟨⟩
  exact Nat.le_refl _

theorem shortens_failure : Shortens (failure : Lexer α) := nofun

theorem Keeps.bind (hp : Keeps p) (hf : ∀ a, Keeps (f a)) : Keeps (p >>= f) := by
  intro s b rest h
  obtain ⟨a, s', hps, hfs⟩ := bind_run.mp h
  exact Nat.le_trans (hf a hfs) (hp hps)

theorem Shortens.bind (hp : Shortens p) (hf : ∀ a, Keeps (f a)) : Shortens (p >>= f) := by
  intro s b rest h
  obtain ⟨a, s', hps, hfs⟩ := bind_run.mp h
  exact Nat.lt_of_le_of_lt (hf a hfs) (hp hps)

theorem Keeps.bind_shortens (hp : Keeps p) (hf : ∀ a, Shortens (f a)) : Shortens (p >>= f) := by
  intro s b rest h
  obtain ⟨a, s', hps, hfs⟩ := bind_run.mp h
  exact Nat.lt_of_lt_of_le (hf a hfs) (hp hps)

theorem Keeps.map (hp : Keeps p) (g : α → β) : Keeps (g <$> p) := by
  rw [← bind_pure_comp]
  exact hp.bind fun a => keeps_pure (g a)

theorem Shortens.map (hp : Shortens p) (g : α → β) : Shortens (g <$> p) := by
  rw [← bind_pure_comp]
  exact hp.bind fun a => keeps_pure (g a)

theorem Keeps.orElse (hp : Keeps p) (hq : Keeps q) : Keeps (p <|> q) := by
  intro s a rest h
  obtain h | ⟨-, h⟩ := orElse_run.mp h
  · exact hp h
  · exact hq h

theorem Shortens.orElse (hp : Shortens p) (hq : Shortens q) : Shortens (p <|> q) := by
  intro s a rest h
  obtain h | ⟨-, h⟩ := orElse_run.mp h
  · exact hp h
  · exact hq h

end

/-- The next code unit. -/
def next : Lexer ℕ
  | [] => none
  | c :: rest => some (c, rest)

/-- So many code units. -/
def take (count : ℕ) : Lexer CodeUnits
  | s => if count ≤ s.length then some (s.take count, s.drop count) else none

/-- The code units up to the first that is not one of these. -/
def span (is : ℕ → Bool) : Lexer CodeUnits
  | s => some (s.takeWhile is, s.dropWhile is)

/-- This character. -/
def char (c : Char) : Lexer Unit
  | [] => none
  | d :: rest => if d = c.toNat then some ((), rest) else none

/-- What is `none` fails. -/
def ofOption {α : Type} : Option α → Lexer α
  | some a => pure a
  | none => failure

/-- The condition, or failure. -/
def check (p : Prop) [Decidable p] : Lexer Unit := if p then pure () else failure

/-- Looking at what is left. -/
theorem keeps_get : Keeps (get : Lexer CodeUnits) := by
  rintro s a rest ⟨⟩
  exact Nat.le_refl _

theorem shortens_next : Shortens next := by
  intro s c rest h
  cases s with
  | nil => cases h
  | cons d s =>
    obtain ⟨-, rfl⟩ := Prod.mk.inj (Option.some.inj h)
    exact Nat.lt_succ_self _

theorem keeps_take (count : ℕ) : Keeps (take count) := by
  intro s cs rest h
  have hif : (if count ≤ s.length then some (s.take count, s.drop count) else none) = some (cs, rest) := h
  split_ifs at hif
  obtain ⟨-, rfl⟩ := Prod.mk.inj (Option.some.inj hif)
  rw [List.length_drop]
  exact Nat.sub_le _ _

theorem keeps_span (is : ℕ → Bool) : Keeps (span is) := by
  intro s cs rest h
  obtain ⟨-, rfl⟩ := Prod.mk.inj (Option.some.inj h)
  exact (List.dropWhile_sublist is).length_le

theorem shortens_char (c : Char) : Shortens (char c) := by
  intro s x rest h
  cases s with
  | nil => cases h
  | cons d s =>
    have hif : (if d = c.toNat then some ((), s) else none) = some (x, rest) := h
    split_ifs at hif
    obtain ⟨-, rfl⟩ := Prod.mk.inj (Option.some.inj hif)
    exact Nat.lt_succ_self _

theorem keeps_ofOption {α : Type} (a : Option α) : Keeps (ofOption a) := by
  cases a with
  | none => exact shortens_failure.keeps
  | some a => exact keeps_pure a

theorem keeps_check (p : Prop) [Decidable p] : Keeps (check p) := by
  unfold check
  split_ifs
  · exact keeps_pure ()
  · exact shortens_failure.keeps

/-! ### Items -/

section Many

variable {α : Type} (stop : Lexer Unit) (item : Lexer α)

/-- Items up to what stops. -/
inductive Many : CodeUnits → List α → CodeUnits → Prop
  | stop {s rest : CodeUnits} : stop.run s = some ((), rest) → Many s [] rest
  | item {s s' rest : CodeUnits} {a : α} {as : List α} : stop.run s = none →
      item.run s = some (a, s') → Many s' as rest → Many s (a :: as) rest

/-- So many items at most. -/
def manyWithin : ℕ → Lexer (List α)
  | 0 => do
    stop
    pure []
  | bound + 1 =>
    (do
      stop
      pure []) <|>
    do
      let a ← item
      let as ← manyWithin bound
      pure (a :: as)

def many : Lexer (List α)
  | s => (manyWithin stop item s.length).run s

variable {stop item} {s rest : CodeUnits} {as : List α} {bound : ℕ}

theorem stop_run : (do stop; pure ([] : List α)).run s = some (as, rest) ↔
    as = [] ∧ stop.run s = some ((), rest) := by
  rw [bind_run]
  constructor
  · rintro ⟨⟨⟩, s', hstop, hpure⟩
    obtain ⟨rfl, rfl⟩ := Prod.mk.inj (Option.some.inj hpure)
    exact ⟨rfl, hstop⟩
  · rintro ⟨rfl, hstop⟩
    exact ⟨(), rest, hstop, rfl⟩

theorem stop_run_eq_none :
    (do stop; pure ([] : List α)).run s = none ↔ stop.run s = none := by
  rw [StateT.run_bind, Option.bind_eq_bind, Option.bind_eq_none_iff]
  constructor
  · intro h
    cases hstop : stop.run s with
    | none => rfl
    | some x => exact nomatch h x hstop
  · intro h x hx
    rw [h] at hx
    cases hx

theorem item_run :
    (do
      let a ← item
      let as ← manyWithin stop item bound
      pure (a :: as)).run s = some (as, rest) ↔
      ∃ a s' as', item.run s = some (a, s') ∧
        (manyWithin stop item bound).run s' = some (as', rest) ∧ as = a :: as' := by
  rw [bind_run]
  refine exists_congr fun a => exists_congr fun s' => ?_
  rw [bind_run]
  constructor
  · rintro ⟨hitem, as', s'', hmany, hpure⟩
    obtain ⟨rfl, rfl⟩ := Prod.mk.inj (Option.some.inj hpure)
    exact ⟨as', hitem, hmany, rfl⟩
  · rintro ⟨as', hitem, hmany, rfl⟩
    exact ⟨hitem, as', rest, hmany, rfl⟩

theorem manyWithin_run (hitem : Shortens item) (hbound : s.length ≤ bound) :
    (manyWithin stop item bound).run s = some (as, rest) ↔ Many stop item s as rest := by
  induction bound generalizing s as with
  | zero =>
    unfold manyWithin
    rw [stop_run]
    constructor
    · rintro ⟨rfl, hstop⟩
      exact .stop hstop
    · rintro (hstop | ⟨-, hread, -⟩)
      · exact ⟨rfl, hstop⟩
      · exact absurd (Nat.lt_of_lt_of_le (hitem hread) hbound) (Nat.not_lt_zero _)
  | succ bound ih =>
    unfold manyWithin
    rw [orElse_run, stop_run, stop_run_eq_none, item_run]
    constructor
    · rintro (⟨rfl, hstop⟩ | ⟨hstop, a, s', as', hread, hmany, rfl⟩)
      · exact .stop hstop
      · have hshort := hitem hread
        exact .item hstop hread ((ih (by omega)).mp hmany)
    · rintro (hstop | ⟨hstop, hread, hmany⟩)
      · exact .inl ⟨rfl, hstop⟩
      · have hshort := hitem hread
        exact .inr ⟨hstop, _, _, _, hread, (ih (by omega)).mpr hmany, rfl⟩

/-- **The bound.** As many items as there are code units are enough. -/
theorem many_run (hitem : Shortens item) :
    (many stop item).run s = some (as, rest) ↔ Many stop item s as rest :=
  manyWithin_run hitem (Nat.le_refl _)

theorem keeps_many (hstop : Keeps stop) (hitem : Shortens item) : Keeps (many stop item) := by
  intro s as rest h
  have hmany : Many stop item s as rest := (many_run hitem).mp h
  clear h
  induction hmany with
  | stop h => exact hstop h
  | item _ hread _ ih => exact Nat.le_trans ih (Nat.le_of_lt (hitem hread))

end Many

end Lexing
end Lib
