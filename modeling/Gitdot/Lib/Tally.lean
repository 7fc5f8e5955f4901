/-
# Counters kept beside the rows they count

A ledger is a table of rows and a table of counters. Each row is about one
subject and has a weight, and the counter of a subject should be the total
weight of the rows about it (`Balanced`). The counters are not computed from the
rows: a transaction writes a row, or removes one, and then adjusts the counter.

`Pending` says what a transaction that has written so far leaves its counter
short of. It speaks of the row and of the counter that the transaction has
written and of nothing else, so it stays true whatever others commit
(`Pending.stable`); and a transaction that leaves nothing short keeps the ledger
balanced when it commits (`Pending.balanced`).

Key definitions: `Ledger`, `Entry`, `Scale`, `Balanced`, `Pending`.
Key theorems: `Scale.total_apply`, `Pending.stable`, `Pending.balanced`.
-/
import Gitdot.Lib.Table
import Mathlib.Algebra.BigOperators.Group.List.Basic
import Mathlib.Algebra.Ring.Int.Defs

namespace Lib
namespace Tally

open Keyed

variable {ρ γ κ τ : Type} [Keyed ρ κ] [LinearOrder κ] [LinearOrder τ]

/-- A row written, or removed. -/
inductive Change (ρ κ : Type) where
  | put (a : ρ)
  | drop (k : κ)

def Change.key : Change ρ κ → κ
  | .put a => Keyed.key a
  | .drop k => k

def Change.new : Change ρ κ → Option ρ
  | .put a => some a
  | .drop _ => none

def Change.apply : Change ρ κ → Table ρ → Table ρ
  | .put a, t => t.upsert a
  | .drop k, t => t.erase k

theorem Change.get?_apply (w : Change ρ κ) (t : Table ρ) (k : κ) :
    (w.apply t).get? k = if k = w.key then w.new else t.get? k := by
  cases w with
  | put a => exact Table.get?_upsert t a k
  | drop k' => exact Table.get?_erase t k' k

/-! ### Totals -/

/-- What a row counts for, and what a counter says. -/
structure Scale (ρ γ τ : Type) where
  subject : ρ → τ
  weight : ρ → ℤ
  count : γ → ℤ

section Scale

variable (f : Scale ρ γ τ)

/-- What a row adds to the total about `x`. -/
def Scale.share (a : ρ) (x : τ) : ℤ := if f.subject a = x then f.weight a else 0

def Scale.shareOf (a : Option ρ) (x : τ) : ℤ := (a.map fun a => f.share a x).getD 0

/-- The total weight of the rows about `x`. -/
def Scale.total (t : Table ρ) (x : τ) : ℤ := (t.rows.map fun a => f.share a x).sum

variable {f} {t : Table ρ} {x : τ}

theorem sum_insertRow (a : ρ) : ∀ rows : List ρ,
    ((Table.insertRow a rows).map fun a => f.share a x).sum =
      f.share a x + (rows.map fun a => f.share a x).sum
  | [] => by simp [Table.insertRow]
  | b :: rows => by
    unfold Table.insertRow
    split_ifs
    · simp
    · simp only [List.map_cons, List.sum_cons, sum_insertRow a rows]
      omega

theorem sum_filter {k : κ} : ∀ {rows : List ρ}, (rows.map key).Nodup →
    (rows.map fun a => f.share a x).sum =
      ((rows.filter fun a => decide (key a ≠ k)).map fun a => f.share a x).sum +
        f.shareOf (rows.find? fun a => decide (key a = k)) x
  | [], _ => by simp [Scale.shareOf]
  | b :: rows, hn => by
    simp only [List.map_cons, List.nodup_cons] at hn
    by_cases hb : key b = k
    · -- the keys are distinct, so the row under `k` is this one alone
      have hrest : (rows.filter fun a => decide (key a ≠ k)) = rows := by
        refine List.filter_eq_self.mpr fun a ha => ?_
        have hne : key a ≠ k := fun he => hn.1 (hb ▸ he ▸ List.mem_map_of_mem ha)
        simp [hne]
      rw [List.filter_cons_of_neg (by simp [hb]), hrest, List.find?_cons_of_pos (by simp [hb])]
      simp only [List.map_cons, List.sum_cons, Scale.shareOf, Option.map_some, Option.getD_some]
      omega
    · have ih := sum_filter (k := k) hn.2
      rw [List.filter_cons_of_pos (by simp [hb]), List.find?_cons_of_neg (by simp [hb])]
      simp only [List.map_cons, List.sum_cons, ih]
      omega

theorem Scale.total_erase (k : κ) :
    f.total t x = f.total (t.erase k) x + f.shareOf (t.get? k) x :=
  sum_filter t.nodup_keys

theorem Scale.total_upsert (a : ρ) :
    f.total (t.upsert a) x = f.share a x + f.total (t.erase (key a)) x :=
  sum_insertRow a _

theorem Scale.total_eq_sum (t : Table ρ) (x : τ) :
    f.total t x = ((t.rows.filter fun a => decide (f.subject a = x)).map f.weight).sum := by
  unfold Scale.total
  induction t.rows with
  | nil => rfl
  | cons a rows ih =>
    rw [List.map_cons, List.sum_cons, ih]
    by_cases ha : f.subject a = x
    · rw [List.filter_cons_of_pos (by simp [ha]), List.map_cons, List.sum_cons, Scale.share, if_pos ha]
    · rw [List.filter_cons_of_neg (by simp [ha]), Scale.share, if_neg ha, Int.zero_add]

/-- The total moves by the difference between the new row and the old. -/
theorem Scale.total_apply (w : Change ρ κ) :
    f.total (w.apply t) x = f.total t x + f.shareOf w.new x - f.shareOf (t.get? w.key) x := by
  have hold := f.total_erase (t := t) (x := x) w.key
  cases w with
  | put a =>
    have hnew := f.total_upsert (t := t) (x := x) a
    simp only [Change.apply, Change.new, Change.key] at hold ⊢
    rw [hnew, hold]
    simp only [Scale.shareOf, Option.map_some, Option.getD_some]
    omega
  | drop k =>
    simp only [Change.apply, Change.new, Change.key] at hold ⊢
    rw [hold]
    simp only [Scale.shareOf, Option.map_none, Option.getD_none]
    omega

/-- The change moves the total about `x` by `d`, and no other. -/
def Shifts (f : Scale ρ γ τ) (t : Table ρ) (w : Change ρ κ) (x : τ) (d : ℤ) : Prop :=
  ∀ y, f.shareOf w.new y - f.shareOf (t.get? w.key) y = if y = x then d else 0

/-- The weight of what is there. -/
def Scale.weightOf (f : Scale ρ γ τ) (a : Option ρ) : ℤ := (a.map f.weight).getD 0

/-- A change between rows about `x` moves its total by the difference of their
weights. -/
theorem shifts_of {t : Table ρ} {w : Change ρ κ} (hnew : ∀ a ∈ w.new, f.subject a = x)
    (hold : ∀ a ∈ t.get? w.key, f.subject a = x) :
    Shifts f t w x (f.weightOf w.new - f.weightOf (t.get? w.key)) := by
  have hshare : ∀ (a : Option ρ) (y : τ), (∀ b ∈ a, f.subject b = x) →
      f.shareOf a y = if y = x then f.weightOf a else 0 := by
    intro a y ha
    cases a with
    | none => simp [Scale.shareOf, Scale.weightOf]
    | some b => simp [Scale.shareOf, Scale.weightOf, Scale.share, ha b rfl, eq_comm]
  intro y
  rw [hshare _ y hnew, hshare _ y hold]
  split_ifs
  · rfl
  · rfl

end Scale

/-! ### Ledgers -/

variable [Keyed γ τ]

/-- Rows, and the counters beside them. -/
structure Ledger (ρ γ : Type) {κ τ : Type} [Keyed ρ κ] [LinearOrder κ] [Keyed γ τ]
    [LinearOrder τ] where
  rows : Table ρ
  counters : Table γ

/-- A write: of a row or of a counter. -/
inductive Entry (ρ γ κ : Type) where
  | change (w : Change ρ κ)
  | count (c : γ)

/-- Where a write is to. -/
inductive Place (κ τ : Type) where
  | row (k : κ)
  | counter (x : τ)
  deriving DecidableEq

/-- What stands at a place. -/
inductive Cell (ρ γ : Type) where
  | row (a : Option ρ)
  | counter (c : Option γ)

def Entry.place : Entry ρ γ κ → Place κ τ
  | .change w => .row w.key
  | .count c => .counter (key c)

def Ledger.cell (s : Ledger ρ γ) : Place κ τ → Cell ρ γ
  | .row k => .row (s.rows.get? k)
  | .counter x => .counter (s.counters.get? x)

def Entry.apply : Entry ρ γ κ → Ledger ρ γ → Ledger ρ γ
  | .change w, s => { s with rows := w.apply s.rows }
  | .count c, s => { s with counters := s.counters.upsert c }

/-- A write leaves the other places alone. -/
theorem cell_apply (e : Entry ρ γ κ) (s : Ledger ρ γ) (p : Place κ τ) (h : p ≠ e.place) :
    (e.apply s).cell p = s.cell p := by
  cases e with
  | change w =>
    cases p with
    | row k =>
      have hk : k ≠ w.key := fun he => h (congrArg Place.row he)
      simp only [Ledger.cell, Entry.apply]
      rw [Change.get?_apply, if_neg hk]
    | counter x => rfl
  | count c =>
    cases p with
    | row k => rfl
    | counter x =>
      have hx : x ≠ key c := fun he => h (congrArg Place.counter he)
      simp only [Ledger.cell, Entry.apply]
      rw [Table.get?_upsert, if_neg hx]

/-- Every counter says the total weight of the rows about its subject. -/
def Balanced (f : Scale ρ γ τ) (s : Ledger ρ γ) : Prop :=
  ∀ c ∈ s.counters.rows, f.count c = f.total s.rows (key c)

instance (f : Scale ρ γ τ) (s : Ledger ρ γ) : Decidable (Balanced f s) :=
  List.decidableBAll _ _

/-! ### What a transaction leaves short -/

section Pending

variable {f : Scale ρ γ τ} {s s' : Ledger ρ γ} {x : τ} {d : ℤ} {writes : List (Entry ρ γ κ)}

/-- The change that a transaction has made, if any, moves the total by `d`. -/
def Moved (f : Scale ρ γ τ) (t : Table ρ) (w : Option (Change ρ κ)) (x : τ) (d : ℤ) : Prop :=
  match w with
  | some w => Shifts f t w x d
  | none => d = 0

/-- The writes leave the counter of `x` short of `d`. -/
inductive Pending (f : Scale ρ γ τ) (s : Ledger ρ γ) : List (Entry ρ γ κ) → τ → ℤ → Prop where
  | changed {w x d} (moved : Moved f s.rows w x d) : Pending f s (w.toList.map .change) x d
  | counted {w x d c c' e} (moved : Moved f s.rows w x d) (counter : s.counters.get? x = some c)
      (same : key c' = x) (added : f.count c' = f.count c + e) :
      Pending f s (.count c' :: w.toList.map .change) x (d - e)

theorem pending_nil : Pending f s [] x 0 := .changed (w := none) rfl

theorem pending_change {w : Change ρ κ} (h : Shifts f s.rows w x d) :
    Pending f s [.change w] x d := .changed (w := some w) h

/-- The row that the change is to is the same. -/
theorem Moved.stable {w : Option (Change ρ κ)} (h : Moved f s.rows w x d)
    (hsame : ∀ p ∈ (w.toList.map Entry.change : List (Entry ρ γ κ)).map Entry.place,
      s'.cell p = s.cell p) : Moved f s'.rows w x d := by
  cases w with
  | none => exact h
  | some w =>
    have hcell := hsame (.row w.key) (by simp [Entry.place])
    have hrow : s'.rows.get? w.key = s.rows.get? w.key := Cell.row.inj hcell
    intro y
    rw [hrow]
    exact h y

/-- The rows and the counter that the writes are to are the same. -/
theorem Pending.stable (h : Pending f s writes x d)
    (hsame : ∀ p ∈ writes.map Entry.place, s'.cell p = s.cell p) : Pending f s' writes x d := by
  cases h with
  | changed moved => exact .changed (moved.stable hsame)
  | counted moved counter same added =>
    have hcell := hsame (.counter x) (by simp [Entry.place, same])
    have hcounter : s'.counters.get? x = s.counters.get? x := Cell.counter.inj hcell
    refine .counted (moved.stable fun p hp => hsame p (List.mem_cons_of_mem _ hp)) ?_ same added
    rw [hcounter, counter]

/-- The counter after the writes, and the total. -/
theorem total_changed {w : Option (Change ρ κ)} (h : Moved f s.rows w x d) (y : τ) :
    f.total ((w.toList.map Entry.change).foldr Entry.apply s).rows y =
      f.total s.rows y + if y = x then d else 0 := by
  cases w with
  | none =>
    subst h
    simp
  | some w =>
    have hy := h y
    simp only [Option.toList_some, List.map_cons, List.map_nil, List.foldr_cons, List.foldr_nil,
      Entry.apply]
    rw [Scale.total_apply]
    omega

theorem counters_changed {w : Option (Change ρ κ)} :
    ((w.toList.map Entry.change).foldr Entry.apply s).counters = s.counters := by
  cases w <;> rfl

/-- **Commit.** A ledger stays balanced when a transaction that leaves nothing
short commits; a subject without a counter lacks nothing. -/
theorem Pending.balanced (h : Pending f s writes x d) (hd : d = 0 ∨ s.counters.get? x = none)
    (hs : Balanced f s) : Balanced f (writes.foldr Entry.apply s) := by
  intro c hc
  cases h with
  | changed moved =>
    rw [counters_changed] at hc
    rw [total_changed moved, hs c hc]
    split_ifs with hx
    · rcases hd with rfl | hd
      · omega
      · exact absurd (hx ▸ Table.get?_key hc) (by rw [hd]; exact nofun)
    · omega
  | @counted w _ d c₀ c' e moved counter same added =>
    have hd : d - e = 0 := by
      rcases hd with hd | hd
      · exact hd
      · rw [counter] at hd
        cases hd
    simp only [List.foldr_cons, Entry.apply] at hc ⊢
    rw [counters_changed] at hc
    rw [total_changed moved]
    rcases Table.mem_upsert.mp hc with rfl | ⟨hc, hne⟩
    · have h₀ := hs c₀ (Table.mem_rows_of_get? counter)
      rw [Table.key_of_get? counter] at h₀
      rw [same, if_pos rfl, added, h₀]
      omega
    · rw [same] at hne
      rw [if_neg hne, hs c hc]
      omega

/-- The writes add no counter. -/
theorem Pending.counter_none (h : Pending f s writes x d) (y : τ) (hy : s.counters.get? y = none) :
    (writes.foldr Entry.apply s).counters.get? y = none := by
  cases h with
  | changed moved => rwa [counters_changed]
  | @counted w x d c c' e moved counter same added =>
    have hne : y ≠ key c' := by
      rintro rfl
      rw [same, counter] at hy
      cases hy
    simp only [List.foldr_cons, Entry.apply]
    rw [counters_changed, Table.get?_upsert, if_neg hne, hy]

end Pending

end Tally
end Lib
