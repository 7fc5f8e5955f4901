/-
# Tables of rows under a unique key

A table is a list of rows in strictly increasing order of their keys, so a
key names at most one row and a table is determined by what `get?` answers
(`Table.ext_get?`). `insert?` refuses a key that is taken, as a unique
constraint does; `modify` rewrites the row under a key and leaves every other
row alone (`Table.get?_modify`); `last?` is the row of the greatest key.
`Table.Lasts` says of two tables that the second still has every row of the
first, as far as `f` sees them.

Key definitions: `Table`, `Table.get?`, `Table.insert?`, `Table.modify`,
`Table.upsert`, `Table.last?`, `Table.Lasts`.
Key theorems: `Table.ext_get?`, `Table.get?_insert?`, `Table.get?_modify`,
`Table.get?_upsert`, `Table.last?_upsert`.
-/
import Mathlib.Data.List.Forall2
import Mathlib.Data.List.Sort

namespace Lib

/-- Rows that carry the key they are stored under. -/
class Keyed (α : Type) (κ : outParam Type) where
  key : α → κ

open Keyed

/-- Rows in strictly increasing order of their keys. -/
structure Table (α : Type) {κ : Type} [Keyed α κ] [LinearOrder κ] where
  rows : List α
  sorted : rows.Pairwise fun a b => key a < key b

namespace Table

variable {α κ : Type} [Keyed α κ] [LinearOrder κ]

instance [DecidableEq α] : DecidableEq (Table α) := fun t u =>
  decidable_of_iff (t.rows = u.rows) ⟨fun h => by cases t; cases u; simpa using h, fun h => h ▸ rfl⟩

/-- The table with no row. -/
def empty : Table α := ⟨[], .nil⟩

/-- The row under the key `k`. -/
def get? (t : Table α) (k : κ) : Option α := t.rows.find? fun a => decide (key a = k)

/-- The row of the greatest key. -/
def last? (t : Table α) : Option α := t.rows.getLast?

theorem nodup_keys (t : Table α) : (t.rows.map key).Nodup :=
  List.pairwise_map.mpr (t.sorted.imp fun h => h.ne)

theorem find?_eq_some_iff {rows : List α} (hn : (rows.map key).Nodup) {k : κ} {a : α} :
    rows.find? (fun a => decide (key a = k)) = some a ↔ a ∈ rows ∧ key a = k := by
  constructor
  · intro h
    exact ⟨List.mem_of_find?_eq_some h, by simpa using List.find?_some h⟩
  · rintro ⟨ha, rfl⟩
    induction rows with
    | nil => cases ha
    | cons b rows ih =>
      simp only [List.map_cons, List.nodup_cons] at hn
      rcases List.mem_cons.mp ha with rfl | ha
      · simp
      · have hne : key b ≠ key a := fun he => hn.1 (he ▸ List.mem_map_of_mem ha)
        simp [hne, ih hn.2 ha]

theorem get?_eq_some_iff {t : Table α} {k : κ} {a : α} :
    t.get? k = some a ↔ a ∈ t.rows ∧ key a = k :=
  find?_eq_some_iff t.nodup_keys

theorem get?_eq_none_iff {t : Table α} {k : κ} : t.get? k = none ↔ ∀ a ∈ t.rows, key a ≠ k := by
  simp [get?]

theorem key_of_get? {t : Table α} {k : κ} {a : α} (h : t.get? k = some a) : key a = k :=
  (get?_eq_some_iff.mp h).2

theorem mem_rows_of_get? {t : Table α} {k : κ} {a : α} (h : t.get? k = some a) : a ∈ t.rows :=
  (get?_eq_some_iff.mp h).1

theorem get?_key {t : Table α} {a : α} (h : a ∈ t.rows) : t.get? (key a) = some a :=
  get?_eq_some_iff.mpr ⟨h, rfl⟩

@[simp] theorem get?_empty (k : κ) : (empty : Table α).get? k = none := rfl

@[simp] theorem rows_empty : (empty : Table α).rows = [] := rfl

@[simp] theorem last?_empty : (empty : Table α).last? = none := rfl

/-- A table is what `get?` answers. -/
theorem ext_get? {t u : Table α} (h : ∀ k, t.get? k = u.get? k) : t = u := by
  have hmem : ∀ a, a ∈ t.rows ↔ a ∈ u.rows := fun a => by
    have := h (key a)
    constructor
    · intro ha
      exact mem_rows_of_get? (this ▸ get?_key ha)
    · intro ha
      exact mem_rows_of_get? (this.symm ▸ get?_key ha)
  have hperm : t.rows.Perm u.rows := (List.perm_ext_iff_of_nodup (.of_map _ t.nodup_keys)
    (.of_map _ u.nodup_keys)).mpr hmem
  have hrows : t.rows = u.rows := hperm.eq_of_pairwise
    (fun a b _ _ hab hba => absurd (hab.trans hba) (lt_irrefl _)) t.sorted u.sorted
  cases t
  cases u
  simpa using hrows

/-! ### Inserting a row -/

/-- `a` at its place among `rows`. -/
def insertRow (a : α) : List α → List α
  | [] => [a]
  | b :: rows => if key a < key b then a :: b :: rows else b :: insertRow a rows

theorem mem_insertRow {a b : α} : ∀ {rows : List α}, b ∈ insertRow a rows ↔ b = a ∨ b ∈ rows
  | [] => by simp [insertRow]
  | c :: rows => by
    unfold insertRow
    split_ifs with h
    · simp
    · simp only [List.mem_cons, mem_insertRow]
      tauto

theorem length_insertRow (a : α) : ∀ rows : List α, (insertRow a rows).length = rows.length + 1
  | [] => rfl
  | b :: rows => by
    unfold insertRow
    split_ifs
    · rfl
    · simp [length_insertRow a rows]

theorem sorted_insertRow {a : α} : ∀ {rows : List α}, rows.Pairwise (fun a b => key a < key b) →
    (∀ b ∈ rows, key b ≠ key a) → (insertRow a rows).Pairwise fun a b => key a < key b
  | [], _, _ => by simp [insertRow]
  | b :: rows, hs, hne => by
    obtain ⟨hb, hs'⟩ := List.pairwise_cons.mp hs
    unfold insertRow
    split_ifs with h
    · refine List.pairwise_cons.mpr ⟨fun c hc => ?_, hs⟩
      rcases List.mem_cons.mp hc with rfl | hc
      · exact h
      · exact h.trans (hb c hc)
    · have hba : key b < key a := lt_of_le_of_ne (not_lt.mp h) (hne b List.mem_cons_self)
      refine List.pairwise_cons.mpr ⟨fun c hc => ?_, sorted_insertRow hs' fun c hc =>
        hne c (List.mem_cons_of_mem _ hc)⟩
      rcases mem_insertRow.mp hc with rfl | hc
      · exact hba
      · exact hb c hc

/-- The table with the row `a` added, unless its key is taken. -/
def insert? (t : Table α) (a : α) : Option (Table α) :=
  if h : ∀ b ∈ t.rows, key b ≠ key a then some ⟨insertRow a t.rows, sorted_insertRow t.sorted h⟩
  else none

theorem insert?_eq_none_iff {t : Table α} {a : α} :
    t.insert? a = none ↔ ∃ b, t.get? (key a) = some b := by
  unfold insert?
  split_ifs with h
  · simp [get?_eq_none_iff.mpr h]
  · simpa [get?_eq_some_iff] using h

theorem insert?_of_get?_none {t : Table α} {a : α} (h : t.get? (key a) = none) :
    ∃ u, t.insert? a = some u := by
  cases hu : t.insert? a with
  | some u => exact ⟨u, rfl⟩
  | none =>
    obtain ⟨b, hb⟩ := insert?_eq_none_iff.mp hu
    rw [h] at hb
    cases hb

theorem get?_none_of_insert? {t u : Table α} {a : α} (h : t.insert? a = some u) :
    t.get? (key a) = none := by
  cases hg : t.get? (key a) with
  | none => rfl
  | some b =>
    rw [insert?_eq_none_iff.mpr ⟨b, hg⟩] at h
    cases h

theorem mem_insert? {t u : Table α} {a b : α} (h : t.insert? a = some u) :
    b ∈ u.rows ↔ b = a ∨ b ∈ t.rows := by
  unfold insert? at h
  split_ifs at h
  cases h
  exact mem_insertRow

theorem length_insert? {t u : Table α} {a : α} (h : t.insert? a = some u) :
    u.rows.length = t.rows.length + 1 := by
  unfold insert? at h
  split_ifs at h
  cases h
  exact length_insertRow a t.rows

theorem get?_insert? {t u : Table α} {a : α} (h : t.insert? a = some u) (k : κ) :
    u.get? k = if k = key a then some a else t.get? k := by
  split_ifs with hk
  · subst hk
    exact get?_eq_some_iff.mpr ⟨(mem_insert? h).mpr (.inl rfl), rfl⟩
  · cases ht : t.get? k with
    | some b =>
      obtain ⟨hb, hbk⟩ := get?_eq_some_iff.mp ht
      exact get?_eq_some_iff.mpr ⟨(mem_insert? h).mpr (.inr hb), hbk⟩
    | none =>
      refine get?_eq_none_iff.mpr fun b hb hbk => ?_
      rcases (mem_insert? h).mp hb with rfl | hb
      · exact hk hbk.symm
      · exact get?_eq_none_iff.mp ht b hb hbk

/-! ### Rewriting a row -/

/-- The table with `f` applied to the row under `k`. -/
def modify (t : Table α) (k : κ) (f : α → α) (hf : ∀ a, key (f a) = key a) : Table α where
  rows := t.rows.map fun a => if key a = k then f a else a
  sorted := List.pairwise_map.mpr <| t.sorted.imp fun {a b} hab => by
    have hkey : ∀ c : α, key (if key c = k then f c else c) = key c := fun c => by
      split_ifs <;> simp [hf]
    rw [hkey, hkey]
    exact hab

theorem get?_modify {t : Table α} {k : κ} {f : α → α} {hf : ∀ a, key (f a) = key a} (j : κ) :
    (t.modify k f hf).get? j = if j = k then (t.get? k).map f else t.get? j := by
  have hkey : ∀ c : α, key (if key c = k then f c else c) = key c := fun c => by
    split_ifs <;> simp [hf]
  cases ht : t.get? j with
  | some a =>
    obtain ⟨ha, rfl⟩ := get?_eq_some_iff.mp ht
    have : (t.modify k f hf).get? (key a) = some (if key a = k then f a else a) :=
      get?_eq_some_iff.mpr ⟨List.mem_map_of_mem ha, hkey a⟩
    rw [this]
    split_ifs with h
    · rw [← h, ht]
      rfl
    · rfl
  | none =>
    have : (t.modify k f hf).get? j = none := get?_eq_none_iff.mpr fun b hb => by
      obtain ⟨a, ha, rfl⟩ := List.mem_map.mp hb
      rw [hkey]
      exact get?_eq_none_iff.mp ht a ha
    rw [this]
    split_ifs with h
    · rw [← h, ht]
      rfl
    · rfl

theorem mem_modify {t : Table α} {k : κ} {f : α → α} {hf : ∀ a, key (f a) = key a} {b : α} :
    b ∈ (t.modify k f hf).rows ↔
      (b ∈ t.rows ∧ key b ≠ k) ∨ ∃ a, t.get? k = some a ∧ b = f a := by
  simp only [modify, List.mem_map, get?_eq_some_iff]
  constructor
  · rintro ⟨a, ha, rfl⟩
    split_ifs with h
    · exact .inr ⟨a, ⟨ha, h⟩, rfl⟩
    · exact .inl ⟨ha, h⟩
  · rintro (⟨hb, hk⟩ | ⟨a, ⟨ha, hk⟩, rfl⟩)
    · exact ⟨b, hb, if_neg hk⟩
    · exact ⟨a, ha, if_pos hk⟩

theorem modify_eq_self {t : Table α} {k : κ} {f : α → α} {hf : ∀ a, key (f a) = key a}
    (h : ∀ a, t.get? k = some a → f a = a) : t.modify k f hf = t := by
  refine ext_get? fun j => ?_
  rw [get?_modify]
  split_ifs with hj
  · rw [hj]
    cases ha : t.get? k with
    | none => rfl
    | some a => simp [h a ha]
  · rfl

/-- The table with `f` applied to every row. -/
def mapRows (t : Table α) (f : α → α) (hf : ∀ a, key (f a) = key a) : Table α where
  rows := t.rows.map f
  sorted := List.pairwise_map.mpr <| t.sorted.imp fun {a b} hab => by
    rw [hf, hf]
    exact hab

theorem get?_mapRows {t : Table α} {f : α → α} {hf : ∀ a, key (f a) = key a} (k : κ) :
    (t.mapRows f hf).get? k = (t.get? k).map f := by
  cases ht : t.get? k with
  | some a =>
    obtain ⟨ha, rfl⟩ := get?_eq_some_iff.mp ht
    exact get?_eq_some_iff.mpr ⟨List.mem_map_of_mem ha, hf a⟩
  | none =>
    refine get?_eq_none_iff.mpr fun b hb => ?_
    obtain ⟨a, ha, rfl⟩ := List.mem_map.mp hb
    rw [hf]
    exact get?_eq_none_iff.mp ht a ha

/-! ### Removing a row -/

/-- The table without the row under `k`. -/
def erase (t : Table α) (k : κ) : Table α where
  rows := t.rows.filter fun a => decide (key a ≠ k)
  sorted := t.sorted.filter _

theorem mem_erase {t : Table α} {k : κ} {a : α} : a ∈ (t.erase k).rows ↔ a ∈ t.rows ∧ key a ≠ k := by
  simp [erase]

theorem get?_erase (t : Table α) (k j : κ) :
    (t.erase k).get? j = if j = k then none else t.get? j := by
  split_ifs with hj
  · exact get?_eq_none_iff.mpr fun a ha hak => (mem_erase.mp ha).2 (hak.trans hj)
  · cases ht : t.get? j with
    | some a =>
      obtain ⟨ha, rfl⟩ := get?_eq_some_iff.mp ht
      exact get?_eq_some_iff.mpr ⟨mem_erase.mpr ⟨ha, hj⟩, rfl⟩
    | none => exact get?_eq_none_iff.mpr fun a ha => get?_eq_none_iff.mp ht a (mem_erase.mp ha).1

/-! ### Putting a row in -/

/-- The table with the row `a` under its key, whatever was there. -/
def upsert (t : Table α) (a : α) : Table α where
  rows := insertRow a (t.rows.filter fun b => decide (key b ≠ key a))
  sorted := sorted_insertRow (t.sorted.filter _) fun b hb => by simpa using (List.mem_filter.mp hb).2

theorem mem_upsert {t : Table α} {a b : α} :
    b ∈ (t.upsert a).rows ↔ b = a ∨ (b ∈ t.rows ∧ key b ≠ key a) := by
  simp [upsert, mem_insertRow]

theorem get?_upsert (t : Table α) (a : α) (k : κ) :
    (t.upsert a).get? k = if k = key a then some a else t.get? k := by
  split_ifs with hk
  · subst hk
    exact get?_eq_some_iff.mpr ⟨mem_upsert.mpr (.inl rfl), rfl⟩
  · cases ht : t.get? k with
    | some b =>
      obtain ⟨hb, rfl⟩ := get?_eq_some_iff.mp ht
      exact get?_eq_some_iff.mpr ⟨mem_upsert.mpr (.inr ⟨hb, hk⟩), rfl⟩
    | none =>
      refine get?_eq_none_iff.mpr fun b hb hbk => ?_
      rcases mem_upsert.mp hb with rfl | ⟨hb, -⟩
      · exact hk hbk.symm
      · exact get?_eq_none_iff.mp ht b hb hbk

@[simp] theorem get?_upsert_self (t : Table α) (a : α) : (t.upsert a).get? (key a) = some a := by
  rw [get?_upsert, if_pos rfl]

theorem upsert_upsert {t : Table α} {a b : α} (hab : key b = key a) :
    (t.upsert a).upsert b = t.upsert b := by
  refine ext_get? fun k => ?_
  simp only [get?_upsert, hab]
  split_ifs <;> rfl

theorem upsert_self {t : Table α} {a : α} (h : t.get? (key a) = some a) : t.upsert a = t := by
  refine ext_get? fun k => ?_
  rw [get?_upsert]
  split_ifs with hk
  · rw [hk, h]
  · rfl

theorem insert?_eq_upsert {t : Table α} {a : α} (h : t.get? (key a) = none) :
    t.insert? a = some (t.upsert a) := by
  obtain ⟨u, hu⟩ := insert?_of_get?_none h
  rw [hu]
  exact congrArg some (ext_get? fun k => by rw [get?_insert? hu, get?_upsert])

/-- Rewriting the row under a key is putting the rewritten row in. -/
theorem modify_eq_upsert {t : Table α} {k : κ} {f : α → α} {hf : ∀ a, key (f a) = key a} {a : α}
    (h : t.get? k = some a) : t.modify k f hf = t.upsert (f a) := by
  have hka : key (f a) = k := (hf a).trans (key_of_get? h)
  refine ext_get? fun j => ?_
  rw [get?_modify, get?_upsert, hka]
  split_ifs
  · simp [h]
  · rfl

/-- A row put in under a key that is taken stands where the old one stood. -/
theorem rows_upsert {t : Table α} {a c : α} (h : t.get? (key a) = some c) :
    (t.upsert a).rows = t.rows.map fun b => if key b = key a then a else b := by
  have hkey : ∀ b : α, key (if key b = key a then a else b) = key b := fun b => by
    split_ifs with hb
    · exact hb.symm
    · rfl
  have hs : (t.rows.map fun b => if key b = key a then a else b).Pairwise
      fun b c => key b < key c :=
    List.pairwise_map.mpr <| t.sorted.imp fun hbc => by rw [hkey, hkey]; exact hbc
  have : t.upsert a = ⟨_, hs⟩ := ext_get? fun k => Option.ext fun b => by
    simp only [get?_eq_some_iff, mem_upsert, List.mem_map]
    constructor
    · rintro ⟨rfl | ⟨hb, hne⟩, rfl⟩
      · obtain ⟨hc, hck⟩ := get?_eq_some_iff.mp h
        exact ⟨⟨c, hc, if_pos hck⟩, rfl⟩
      · exact ⟨⟨b, hb, if_neg hne⟩, rfl⟩
    · rintro ⟨⟨d, hd, rfl⟩, rfl⟩
      split_ifs with hda
      · exact ⟨.inl rfl, rfl⟩
      · exact ⟨.inr ⟨hd, hda⟩, rfl⟩
  rw [this]

/-- The first row that meets `p`, when a row put in takes the place of it and
meets `p` too. -/
theorem find?_upsert {p : α → Bool} {t : Table α} {a c : α} (hc : t.rows.find? p = some c)
    (hk : key c = key a) (ha : p a = true) : (t.upsert a).rows.find? p = some a := by
  have hmem := List.mem_of_find?_eq_some hc
  rw [rows_upsert (hk ▸ get?_key hmem), List.find?_map]
  obtain ⟨as, bs, hrows, hfirst⟩ := (List.find?_eq_some_iff_append.mp hc).2
  have hp : ∀ b ∈ as, (p ∘ fun b => if key b = key a then a else b) b = false := fun b hb => by
    have hs := t.sorted
    rw [hrows] at hs
    have hlt := (List.pairwise_append.mp hs).2.2 b hb c List.mem_cons_self
    rw [hk] at hlt
    simpa [hlt.ne] using hfirst b hb
  have hnone : as.find? (p ∘ fun b => if key b = key a then a else b) = none :=
    List.find?_eq_none.mpr fun b hb => by simpa using hp b hb
  rw [hrows, List.find?_append, hnone]
  simp [hk, ha]

/-! ### The row of the greatest key -/

theorem mem_of_last? {t : Table α} {a : α} (h : t.last? = some a) : a ∈ t.rows :=
  List.mem_of_getLast? h

theorem get?_of_last? {t : Table α} {a : α} (h : t.last? = some a) : t.get? (key a) = some a :=
  get?_key (mem_of_last? h)

theorem last?_eq_none_iff {t : Table α} : t.last? = none ↔ t.rows = [] :=
  List.getLast?_eq_none_iff

theorem last?_eq_some_iff {t : Table α} {a : α} :
    t.last? = some a ↔ a ∈ t.rows ∧ ∀ b ∈ t.rows, key b ≤ key a := by
  constructor
  · intro h
    refine ⟨mem_of_last? h, fun b hb => ?_⟩
    obtain ⟨init, hinit⟩ := List.getLast?_eq_some_iff.mp h
    have hs := t.sorted
    rw [hinit] at hb hs
    rcases List.mem_append.mp hb with hb | hb
    · exact ((List.pairwise_append.mp hs).2.2 b hb a List.mem_cons_self).le
    · rw [List.mem_singleton.mp hb]
  · rintro ⟨ha, hmax⟩
    cases hl : t.last? with
    | none =>
      rw [last?_eq_none_iff.mp hl] at ha
      cases ha
    | some c =>
      obtain ⟨init, hinit⟩ := List.getLast?_eq_some_iff.mp hl
      have hs := t.sorted
      rw [hinit] at ha hs
      rcases List.mem_append.mp ha with ha | ha
      · have hac := (List.pairwise_append.mp hs).2.2 a ha c List.mem_cons_self
        exact absurd hac (not_lt.mpr (hmax c (mem_of_last? hl)))
      · rw [List.mem_singleton.mp ha]

theorem last?_upsert {t : Table α} {a : α} (hmax : ∀ b ∈ t.rows, key b ≤ key a) :
    (t.upsert a).last? = some a :=
  last?_eq_some_iff.mpr ⟨mem_upsert.mpr (.inl rfl), fun b hb => by
    rcases mem_upsert.mp hb with rfl | ⟨hb, -⟩
    · exact le_rfl
    · exact hmax b hb⟩

/-- A row put in at or above the greatest key is the row of the greatest key. -/
theorem last?_upsert_of_le {t : Table α} {a b : α} (h : t.last? = some b) (hab : key b ≤ key a) :
    (t.upsert a).last? = some a :=
  last?_upsert fun c hc => ((last?_eq_some_iff.mp h).2 c hc).trans hab

/-! ### Rows related one by one -/

/-- A modified table is row by row the table before. -/
theorem forall₂_modify {R : α → α → Prop} {t : Table α} {k : κ} {f : α → α}
    (hf : ∀ a, key (f a) = key a) (hrefl : ∀ a, R a a)
    (hmod : ∀ a, t.get? k = some a → R a (f a)) : List.Forall₂ R t.rows (t.modify k f hf).rows := by
  refine List.forall₂_map_right_iff.mpr (List.forall₂_same.mpr fun a ha => ?_)
  split_ifs with hk
  · exact hmod a (Table.get?_eq_some_iff.mpr ⟨ha, hk⟩)
  · exact hrefl a

/-! ### Rows that last -/

/-- Every row of the first table is in the second, with the same `f`. -/
def Lasts {β : Type} (f : α → β) (t u : Table α) : Prop :=
  ∀ k a, t.get? k = some a → ∃ b, u.get? k = some b ∧ f b = f a

section Lasts

variable {β : Type} {f : α → β} {t u v : Table α}

theorem Lasts.refl (f : α → β) (t : Table α) : Lasts f t t := fun _ a ha => ⟨a, ha, rfl⟩

theorem Lasts.trans (h : Lasts f t u) (h' : Lasts f u v) : Lasts f t v := by
  intro k a ha
  obtain ⟨b, hb, hba⟩ := h k a ha
  obtain ⟨c, hc, hcb⟩ := h' k b hb
  exact ⟨c, hc, hcb.trans hba⟩

theorem lasts_insert? {a : α} (h : t.insert? a = some u) : Lasts f t u := by
  intro k b hb
  refine ⟨b, ?_, rfl⟩
  rw [get?_insert? h, if_neg, hb]
  rintro rfl
  rw [get?_none_of_insert? h] at hb
  cases hb

theorem lasts_modify {k : κ} {g : α → α} (hg : ∀ a, key (g a) = key a) (hf : ∀ a, f (g a) = f a) :
    Lasts f t (t.modify k g hg) := by
  intro j a ha
  rw [get?_modify]
  split_ifs with hj
  · rw [← hj, ha]
    exact ⟨g a, rfl, hf a⟩
  · exact ⟨a, ha, rfl⟩

end Lasts

end Table

/-! ### What related lists and options find -/

/-- Where related rows pass the same, related rows are found. -/
theorem find?_rel {α : Type} {R : α → α → Prop} {p p' : α → Bool} (hp : ∀ a b, R a b → p a = p' b) :
    ∀ {l l' : List α}, List.Forall₂ R l l' → Option.Rel R (l.find? p) (l'.find? p')
  | _, _, .nil => .none
  | a :: l, b :: l', .cons hab h => by
    rw [List.find?_cons, List.find?_cons, ← hp a b hab]
    cases p a with
    | true => exact .some hab
    | false => exact find?_rel hp h

theorem rel_isSome {α : Type} {R : α → α → Prop} {a b : Option α} (h : Option.Rel R a b) :
    a.isSome = b.isSome := by
  cases h <;> rfl

theorem rel_bind {α β : Type} {R : α → α → Prop} {S : β → β → Prop} {a b : Option α}
    {f : α → Option β} (h : Option.Rel R a b) (hf : ∀ x y, R x y → Option.Rel S (f x) (f y)) :
    Option.Rel S (a.bind f) (b.bind f) := by
  cases h with
  | some hxy => exact hf _ _ hxy
  | none => exact .none

theorem rel_some {α : Type} {R : α → α → Prop} {a : α} {b : Option α}
    (h : Option.Rel R (some a) b) : ∃ b', b = some b' ∧ R a b' := by
  cases h with
  | some hab => exact ⟨_, rfl, hab⟩

end Lib
