/-
# Keyset pagination

A query answers with the rows it matches from the greatest key to the least,
one page at a time: those below the key where the previous page ended, and at
most `limit` of them. It fetches one row more to know if there is a next
page, which then goes on from the last key of this one.

So a page holds a row if the row is below the cursor and fewer than `limit`
of the rows that are come before it (`mem_page`). Going on from cursor to cursor
until there is none gives all rows that match (`follow_page`).

Key definitions: `page`, `OnPage`, `followPages`.
Key theorems: `page_fst`, `mem_page`, `page_split`, `follow_page`.
-/
import Mathlib.Data.List.Sort

namespace Lib

variable {α κ : Type} [LinearOrder κ] {key : α → κ}

/-- The rows below the cursor. -/
def below (key : α → κ) (cursor : Option κ) (rows : List α) : List α :=
  rows.filter fun a => cursor.all fun k => decide (key a < k)

/-- The rows from the greatest key to the least. -/
def descending (key : α → κ) (rows : List α) : List α :=
  rows.insertionSort fun a b => key b ≤ key a

/-- A page, and where the next one goes on. -/
def page (key : α → κ) (cursor : Option κ) (limit : ℕ) (rows : List α) : List α × Option κ :=
  let fetched := (descending key (below key cursor rows)).take (limit + 1)
  if limit < fetched.length then (fetched.dropLast, fetched.dropLast.getLast?.map key)
  else (fetched, none)

/-- The row is below the cursor, and the page has room for it. -/
def OnPage (key : α → κ) (cursor : Option κ) (limit : ℕ) (rows : List α) (a : α) : Prop :=
  a ∈ below key cursor rows ∧
    ((below key cursor rows).filter fun b => decide (key a < key b)).length < limit

theorem mem_below {cursor : Option κ} {rows : List α} {a : α} (h : a ∈ below key cursor rows) :
    a ∈ rows := List.mem_of_mem_filter h

/-- The row fetched on top is not on the page. -/
theorem page_fst (cursor : Option κ) (limit : ℕ) (rows : List α) :
    (page key cursor limit rows).1 = (descending key (below key cursor rows)).take limit := by
  unfold page
  dsimp only
  split_ifs with h
  · rw [List.length_take] at h
    have hlen : min (limit + 1) (descending key (below key cursor rows)).length = limit + 1 := by
      omega
    have hmin : min (limit + 1 - 1) (limit + 1) = limit := by omega
    rw [List.dropLast_eq_take, List.length_take, hlen, List.take_take, hmin]
  · rw [List.length_take] at h
    have hlen : (descending key (below key cursor rows)).length ≤ limit := by omega
    rw [List.take_of_length_le hlen, List.take_of_length_le (Nat.le_succ_of_le hlen)]

/-- Different keys, so a strict order. -/
theorem pairwise_descending {rows : List α} (hn : (rows.map key).Nodup) :
    (descending key rows).Pairwise fun a b => key b < key a := by
  have hle : (descending key rows).Pairwise fun a b => key b ≤ key a := by
    have : Std.Total fun a b : α => key b ≤ key a := ⟨fun a b => le_total (key b) (key a)⟩
    have : IsTrans α fun a b => key b ≤ key a := ⟨fun a b c hab hbc => hbc.trans hab⟩
    exact List.pairwise_insertionSort _ rows
  have hperm : (descending key rows).Perm rows := List.perm_insertionSort _ rows
  have hne : (descending key rows).Pairwise fun a b => key a ≠ key b :=
    List.pairwise_map.mp ((hperm.map key).nodup_iff.mpr hn)
  exact (hle.and hne).imp fun h => lt_of_le_of_ne h.1 h.2.symm

/-- In a descending list the first `n` rows are those with fewer than `n` before
them. -/
theorem mem_take_iff {a : α} : ∀ {rows : List α} {n : ℕ},
    rows.Pairwise (fun a b => key b < key a) →
      (a ∈ rows.take n ↔ a ∈ rows ∧ (rows.filter fun b => decide (key a < key b)).length < n)
  | [], n, _ => by simp
  | b :: rows, 0, _ => by simp
  | b :: rows, n + 1, h => by
    obtain ⟨hb, hrows⟩ := List.pairwise_cons.mp h
    rw [List.take_succ_cons, List.mem_cons, List.mem_cons, List.filter_cons]
    have hfirst : ∀ c ∈ rows, ¬ key b < key c := fun c hc => (hb c hc).asymm
    constructor
    · rintro (rfl | ha)
      · have hnil : (rows.filter fun c => decide (key a < key c)) = [] :=
          List.filter_eq_nil_iff.mpr fun c hc => by simpa using hfirst c hc
        simp [hnil]
      · obtain ⟨ha, hlen⟩ := (mem_take_iff hrows).mp ha
        rw [if_pos (by simpa using hb a ha), List.length_cons]
        exact ⟨.inr ha, by omega⟩
    · rintro ⟨rfl | ha, hlen⟩
      · exact .inl rfl
      · rw [if_pos (by simpa using hb a ha), List.length_cons] at hlen
        exact .inr ((mem_take_iff hrows).mpr ⟨ha, by omega⟩)

/-- **Pages.** -/
theorem mem_page {cursor : Option κ} {limit : ℕ} {rows : List α} {a : α}
    (hn : (rows.map key).Nodup) :
    a ∈ (page key cursor limit rows).1 ↔ OnPage key cursor limit rows a := by
  have hbelow : ((below key cursor rows).map key).Nodup :=
    hn.sublist (List.filter_sublist.map key)
  have hperm : (descending key (below key cursor rows)).Perm (below key cursor rows) :=
    List.perm_insertionSort _ _
  rw [page_fst, mem_take_iff (pairwise_descending hbelow), hperm.mem_iff,
    (hperm.filter _).length_eq]
  exact Iff.rfl

/-! ### From page to page -/

/-- At most `n` pages, one after the other: the rows on them, once a page has
come without a cursor. -/
def followPages {β : Type} (next : Option β → List α × Option β) : ℕ → Option β → Option (List α)
  | 0, _ => none
  | n + 1, cursor =>
    match next cursor with
    | (rows, none) => some rows
    | (rows, some c) => (followPages next n (some c)).map fun rest => rows ++ rest

/-- Rows below a key are below a cursor that is above it. -/
theorem below_below {cursor : Option κ} {rows : List α} {k : κ}
    (hk : cursor.all fun c => decide (k < c)) :
    below key (some k) rows = below key (some k) (below key cursor rows) := by
  unfold below
  rw [List.filter_filter]
  refine List.filter_congr fun a _ => ?_
  cases cursor with
  | none => simp
  | some c =>
    have hk : k < c := by simpa using hk
    by_cases ha : key a < k
    · simp [ha, ha.trans hk]
    · simp [ha]

/-- The rows of a descending list below its row number `n` are those after it. -/
theorem below_getElem {a : α} : ∀ {rows : List α} {n : ℕ},
    rows.Pairwise (fun a b => key b < key a) → rows[n]? = some a →
      below key (some (key a)) rows = rows.drop (n + 1)
  | b :: rows, 0, h, hn => by
    obtain ⟨hb, -⟩ := List.pairwise_cons.mp h
    obtain rfl : b = a := by simpa using hn
    have hall : below key (some (key b)) rows = rows :=
      List.filter_eq_self.mpr fun c hc => by simpa using hb c hc
    rw [List.drop_succ_cons, List.drop_zero, ← hall, below, List.filter_cons_of_neg (by simp)]
    unfold below
    rw [List.filter_filter]
    simp
  | b :: rows, n + 1, h, hn => by
    obtain ⟨hb, hrows⟩ := List.pairwise_cons.mp h
    have hn : rows[n]? = some a := by simpa using hn
    have hab : key a < key b := hb a (List.mem_of_getElem? hn)
    have ih := below_getElem hrows hn
    rw [List.drop_succ_cons, ← ih, below, List.filter_cons_of_neg (by simp [hab.le])]
    rfl

theorem descending_perm (key : α → κ) (rows : List α) : (descending key rows).Perm rows :=
  List.perm_insertionSort _ rows

/-- What is on a page is a row. -/
theorem mem_of_mem_page {cursor : Option κ} {limit : ℕ} {rows : List α} {a : α}
    (h : a ∈ (page key cursor limit rows).1) : a ∈ rows := by
  rw [page_fst] at h
  exact mem_below ((descending_perm key _).mem_iff.mp (List.mem_of_mem_take h))

/-- A first page that has room for all rows. -/
theorem mem_page_of_le {limit : ℕ} {rows : List α} {a : α} (h : rows.length ≤ limit) :
    a ∈ (page key none limit rows).1 ↔ a ∈ rows := by
  have hall : below key none rows = rows := List.filter_eq_self.mpr fun _ _ => rfl
  rw [page_fst, hall, List.take_of_length_le (by rw [(descending_perm key rows).length_eq]; exact h)]
  exact (descending_perm key rows).mem_iff

/-- A list that descends is the descending list of its rows. -/
theorem descending_eq {l rows : List α} (hl : l.Pairwise fun a b => key b < key a)
    (hperm : l.Perm rows) (hn : (rows.map key).Nodup) : descending key rows = l := by
  refine ((descending_perm key rows).trans hperm.symm).eq_of_pairwise ?_ (pairwise_descending hn) hl
  exact fun a b _ _ hab hba => absurd (hab.trans hba) (lt_irrefl _)

/-- What a page and its cursor say of the rows that are left. -/
structure Splits (key : α → κ) (cursor : Option κ) (rows data : List α) (k : κ) : Prop where
  rest : descending key (below key cursor rows) = data ++ descending key (below key (some k) rows)
  nonempty : data ≠ []
  cursorOf : ∃ a ∈ rows, key a = k

/-- A page that leaves rows over, with the key of its last row as the cursor. -/
theorem page_of_lt {cursor : Option κ} {limit : ℕ} {rows D : List α}
    (hD : descending key (below key cursor rows) = D) (hmore : limit < D.length)
    (hget : limit - 1 < D.length) (hlimit : 1 ≤ limit) :
    page key cursor limit rows = (D.take limit, some (key D[limit - 1])) := by
  have hfst : (page key cursor limit rows).1 = D.take limit := by
    rw [page_fst, hD]
  have hlast : (D.take limit).getLast? = some D[limit - 1] := by
    rw [List.getLast?_eq_getElem?, List.length_take, Nat.min_eq_left hmore.le,
      List.getElem?_take_of_lt (by omega), List.getElem?_eq_getElem hget]
  have hlen : limit < (D.take (limit + 1)).length := by
    rw [List.length_take]
    omega
  have hdrop : (D.take (limit + 1)).dropLast = D.take limit := by
    rw [List.dropLast_eq_take, List.length_take, List.take_take]
    congr 1
    omega
  have hsnd : (page key cursor limit rows).2 = some (key D[limit - 1]) := by
    unfold page
    dsimp only
    rw [hD, if_pos hlen, hdrop, hlast]
    rfl
  exact Prod.ext hfst hsnd

/-- The rows below the last one of a page are those that come after it. -/
theorem descending_below_getElem {cursor : Option κ} {limit : ℕ} {rows D : List α}
    (hn : (rows.map key).Nodup) (hD : descending key (below key cursor rows) = D)
    (hget : limit - 1 < D.length) (hlimit : 1 ≤ limit) :
    descending key (below key (some (key D[limit - 1])) rows) = D.drop limit := by
  have hperm : D.Perm (below key cursor rows) := hD ▸ descending_perm key _
  have hstrict : D.Pairwise fun a b => key b < key a :=
    hD ▸ pairwise_descending (hn.sublist (List.filter_sublist.map key))
  have hcursor : cursor.all fun c => decide (key D[limit - 1] < c) :=
    (List.mem_filter.mp (hperm.mem_iff.mp (List.getElem_mem hget))).2
  have hafter : below key (some (key D[limit - 1])) D = D.drop limit := by
    have hdrop := below_getElem hstrict (List.getElem?_eq_getElem hget)
    rwa [Nat.sub_add_cancel hlimit] at hdrop
  have hrows : below key (some (key D[limit - 1])) rows =
      below key (some (key D[limit - 1])) (below key cursor rows) := below_below hcursor
  refine descending_eq (hstrict.sublist (List.drop_sublist limit D)) ?_
    (hn.sublist (List.filter_sublist.map key))
  rw [← hafter, hrows]
  exact hperm.filter _

/-- **One page.** Either it ends the list, or the list goes on below its cursor. -/
theorem page_split (cursor : Option κ) {limit : ℕ} {rows : List α} (hn : (rows.map key).Nodup)
    (hlimit : 1 ≤ limit) :
    page key cursor limit rows = (descending key (below key cursor rows), none) ∨
      ∃ data k, page key cursor limit rows = (data, some k) ∧ Splits key cursor rows data k := by
  have hperm := descending_perm key (below key cursor rows)
  generalize hD : descending key (below key cursor rows) = D at hperm
  rcases Nat.lt_or_ge limit D.length with hmore | hless
  · have hget : limit - 1 < D.length := by omega
    refine .inr ⟨_, _, page_of_lt hD hmore hget hlimit, ?_, ?_, D[limit - 1],
      mem_below (hperm.mem_iff.mp (List.getElem_mem hget)), rfl⟩
    · rw [hD, descending_below_getElem hn hD hget hlimit, List.take_append_drop]
    · intro hnil
      have hlen := congrArg List.length hnil
      rw [List.length_take, List.length_nil] at hlen
      omega
  · left
    have htake : D.take (limit + 1) = D := List.take_of_length_le (by omega)
    unfold page
    dsimp only
    rw [hD, htake, if_neg (by omega)]

/-- **All pages.** Whatever the limit, going on from cursor to cursor ends, with
the rows that match from the greatest key to the least. -/
theorem follow_page {limit : ℕ} {rows : List α} (hn : (rows.map key).Nodup) (hlimit : 1 ≤ limit) :
    ∀ {n : ℕ} {cursor : Option κ}, (below key cursor rows).length < n →
      followPages (fun c => page key c limit rows) n cursor =
        some (descending key (below key cursor rows))
  | 0, _, h => absurd h (Nat.not_lt_zero _)
  | n + 1, cursor, h => by
    unfold followPages
    rcases page_split cursor hn hlimit with hpage | ⟨data, k, hpage, hsplit⟩
    · rw [hpage]
    · have hlen : (below key (some k) rows).length < n := by
        have hlength := congrArg List.length hsplit.rest
        rw [List.length_append, (descending_perm key _).length_eq, (descending_perm key _).length_eq] at hlength
        have hpos : 0 < data.length := List.length_pos_iff.mpr hsplit.nonempty
        omega
      rw [hpage]
      dsimp only
      rw [follow_page hn hlimit hlen, Option.map_some, hsplit.rest]

end Lib
